import StackC.Text.Punctuation
import StackC.Text.Utf8
import StackC.Markdown.Fence
import StackC.Markdown.Markup

/-! The plain text of a heading: line ends, the marks of emphasis and of code, and what stands
between angle brackets vanish, and all else stays as it is written. -/
namespace StackC.Markdown

structure Run where
  mark : UInt8
  /-- The marks that have not been used yet. -/
  length : Nat
  /-- All its marks, those in use included. -/
  total : Nat
  canOpen : Bool
  canClose : Bool
  deriving DecidableEq, Repr

inductive Span
  | text (t : Bytes)
  | run (r : Run)
  deriving DecidableEq, Repr

/-- The marks that are left of a run are text. -/
def Span.plain : Span → Bytes
  | .text t => t
  | .run r => List.replicate r.length r.mark

def replacement : Nat := 0xFFFD

def newlineCode : Nat := 10

/-- The code point that a text begins with. The end of a text counts as a line end. -/
def codeAfter (t : Bytes) : Nat :=
  match t, Text.codePoint? t with
  | [], _ => newlineCode
  | _, some (code, _) => code
  | _, none => replacement

def codeBefore (behind : Bytes) : Nat :=
  let tail := behind.takeWhile Text.isContinuation
  match behind.drop tail.length with
  | first :: _ => codeAfter (first :: tail.reverse)
  | [] => newlineCode

def isSpaceCode (code : Nat) : Bool :=
  (9 ≤ code && code ≤ 13) || (0x2000 ≤ code && code ≤ 0x200A) ||
    [0x20, 0x85, 0xA0, 0x1680, 0x2028, 0x2029, 0x202F, 0x205F, 0x3000].contains code

/-- A run of `length` marks between two code points. It opens if it leans on what follows and
closes if it leans on what precedes. Underscores inside a word do neither. -/
def runBetween (mark : UInt8) (length before after : Nat) : Run :=
  let spaceBefore := isSpaceCode before
  let spaceAfter := isSpaceCode after
  let punctBefore := Text.isPunctuation before
  let punctAfter := Text.isPunctuation after
  let left := !spaceAfter && (!punctAfter || spaceBefore || punctBefore)
  let right := !spaceBefore && (!punctBefore || spaceAfter || punctAfter)
  let strict := mark == byte '_'
  { mark, length, total := length
    canOpen := left && (!strict || !right || punctBefore)
    canClose := right && (!strict || !left || punctAfter) }

/-- The text before the next run of exactly `width` backticks, and the number of bytes up to its
end. -/
def codeSpan? (width : Nat) : Bytes → Option (Bytes × Nat)
  | [] => none
  | b :: rest =>
    if b == backtick then
      let run := rest.takeWhile (· == backtick)
      let skipped := b :: run
      if skipped.length = width then some ([], width)
      else do
        let (t, n) ← codeSpan? width (rest.drop run.length)
        return (skipped ++ t, n + skipped.length)
    else do
      let (t, n) ← codeSpan? width rest
      return (b :: t, n + 1)
termination_by t => t.length
decreasing_by all_goals simp only [List.length_drop, List.length_cons]; omega

/-- Code loses a space on each side, if it has both and is not blank. -/
def trimCode (t : Bytes) : Bytes :=
  let space (b : Option UInt8) : Bool := b == some (byte ' ') || b == some Text.newline
  if space t.head? && space t.getLast? && !isBlankLine t then (t.drop 1).dropLast else t

/-- A line ends here. -/
def atLineEnd (t : Bytes) : Bool :=
  [Text.newline].isPrefixOf t || [byte '\r', Text.newline].isPrefixOf t

/-- Cuts a heading into spans. `behind` holds what has been read, in reverse. A byte behind a
backslash is text. Blanks before a line end vanish with it, and so does a lone backslash. -/
def spans (behind : Bytes) : Bytes → List Span
  | [] => []
  | b :: rest =>
    if b == Text.backslash then
      match rest with
      | [] => [.text [b]]
      | e :: after =>
        if !isBlank e then .text [b, e] :: spans (e :: b :: behind) after
        else if atLineEnd rest && behind.head? != some b then spans (b :: behind) (e :: after)
        else .text [b] :: spans (b :: behind) (e :: after)
    else if b == backtick then
      let run := b :: rest.takeWhile (· == backtick)
      let inside := rest.drop (run.length - 1)
      match codeSpan? run.length inside with
      | some (code, n) =>
        .text (trimCode code) :: spans ((inside.take n).reverse ++ run ++ behind) (inside.drop n)
      | none => .text run :: spans (run ++ behind) inside
    else if b == byte '*' || b == byte '_' then
      let run := b :: rest.takeWhile (· == b)
      let after := rest.drop (run.length - 1)
      .run (runBetween b run.length (codeBefore behind) (codeAfter after)) ::
        spans (run ++ behind) after
    else if b == byte '<' then
      match markup? rest with
      | some after =>
        let n := rest.length - after.length
        spans ((rest.take n).reverse ++ b :: behind) (rest.drop n)
      | none => .text [b] :: spans (b :: behind) rest
    else if isBlank b then
      let run := b :: rest.takeWhile isBlank
      let after := spans (run.reverse ++ behind) (rest.drop (run.length - 1))
      if run.contains Text.newline then after else .text run :: after
    else .text [b] :: spans (b :: behind) rest
termination_by t => t.length
decreasing_by all_goals grind

/-- Two runs that could both open and close do not pair if their lengths add up to a multiple of
three, unless both are multiples of three. -/
def Run.clashes (opener closer : Run) : Bool :=
  (opener.canClose || closer.canOpen) && (opener.total + closer.total) % 3 == 0 &&
    closer.total % 3 != 0

/-- A run that opens what another could close. -/
def Run.faces (opener closer : Run) : Bool := opener.canOpen && opener.mark == closer.mark

/-- The nearest run that a closing run pairs with, among the spans before it in reverse: the spans
between them, the run, and the spans before it. -/
def opener? (closer : Run) : List Span → Option (List Span × Run × List Span)
  | [] => none
  | .run r :: before =>
    if r.faces closer && !r.clashes closer then some ([], r, before)
    else (opener? closer before).map fun (inner, o, outer) => (.run r :: inner, o, outer)
  | .text t :: before =>
    (opener? closer before).map fun (inner, o, outer) => (.text t :: inner, o, outer)

/-- The number of marks that a pair uses: two for strong emphasis, one for plain. -/
def used (opener closer : Run) : Nat := if 2 ≤ opener.length && 2 ≤ closer.length then 2 else 1

private theorem used_pos (opener closer : Run) : 0 < used opener closer := by
  unfold used
  split <;> omega

def leftover (r : Run) (n : Nat) : List Span :=
  if r.length ≤ n then [] else [.run { r with length := r.length - n }]

/-- The size of the spans that are still to be read. -/
def pending : List Span → Nat
  | [] => 0
  | .text _ :: rest => pending rest + 1
  | .run r :: rest => pending rest + r.length + 1

/-- Pairs the runs of emphasis marks. `done` holds the spans before, in reverse. Runs between a pair
become text. -/
def pair (done : List Span) (todo : List Span) : List Span :=
  match todo with
  | [] => done.reverse
  | .text t :: rest => pair (.text t :: done) rest
  | .run r :: rest =>
    if r.canClose then
      match opener? r done with
      | some (inner, o, outer) =>
        let n := used o r
        let done' := inner.map (fun s => .text s.plain) ++ leftover o n ++ outer
        if r.length ≤ n then pair done' rest
        else pair done' (.run { r with length := r.length - n } :: rest)
      | none =>
        let faced := done.any fun
          | .run o => o.faces r
          | .text _ => false
        if faced || r.canOpen then pair (.run r :: done) rest
        else pair (.text (Span.run r).plain :: done) rest
    else pair (.run r :: done) rest
termination_by pending todo
decreasing_by
  all_goals simp only [pending]
  all_goals have := used_pos
  all_goals grind

def plainText (t : Bytes) : Bytes := (pair [] (spans [] t)).flatMap Span.plain

end StackC.Markdown
