import Mathlib.Data.List.Forall2
import StackC.Markdown.Item
import StackC.Proofs.Text.Lines

/-! How CommonMark lays out a document whose fences stand outside of all other blocks, and what a
Markdown library is relied on to do with such a document. -/
namespace StackC.Markdown

def isPad (b : UInt8) : Bool := b == byte ' ' || b == byte '\t'

def isMark (b : UInt8) : Bool := b == backtick || b == tilde

/-- A line of text that is not indented and does not begin with a mark. -/
structure Inert (t : Bytes) : Prop where
  within : Text.newline ∉ t
  begins : t.head?.any fun b => !isPad b && !isMark b

/-- A line that opens or closes a fence: spaces, marks, and what follows up to the next line. -/
structure MarkLine where
  indent : Nat
  mark : UInt8
  width : Nat
  tail : Bytes
  deriving DecidableEq, Repr

def MarkLine.text (l : MarkLine) : Bytes :=
  List.replicate l.indent (byte ' ') ++ (List.replicate l.width l.mark ++ l.tail)

/-- A line of code: the indentation that is not part of the code, the rest of the line, and the text
that is given for it. -/
structure CodeText where
  margin : Bytes
  rest : Bytes
  text : Bytes
  deriving DecidableEq, Repr

def CodeText.line (c : CodeText) : Bytes := c.margin ++ c.rest

structure Fenced where
  head : MarkLine
  language : Bytes
  /-- Where on the opening line the info string ends, if there is one. -/
  infoStop : Option Nat
  /-- What is given in the place of the indentation of the first line of code: spaces, if a tab in
  it reaches too far. -/
  left : Bytes
  body : List CodeText
  foot : Option MarkLine
  deriving DecidableEq, Repr

def placeCode (start : Nat) : List CodeText → List CodeLine
  | [] => []
  | c :: cs =>
    ⟨start + c.margin.length, start + c.line.length, c.text⟩ ::
      placeCode (start + c.line.length) cs

namespace Fenced

variable (f : Fenced)

def code : Bytes := f.body.flatMap CodeText.line

def footText : Bytes := f.foot.elim [] MarkLine.text

def text : Bytes := f.head.text ++ (f.code ++ f.footText)

/-- The start of the first line of code that is not part of the code. -/
def margin : Bytes := f.body.head?.elim [] CodeText.margin

/-- The fence when its opening line begins at `start`. -/
def placed (start : Nat) : FencedCode where
  language := f.language
  infoStop := f.infoStop.map (start + ·)
  lines := placeCode (start + f.head.text.length) f.body
  closed := f.foot.isSome
  nested := false

end Fenced

inductive Passage
  /-- Text outside of fences, with the headings in it, be they in a list or a quote or in none. -/
  | prose (text : Bytes) (headings : List Bytes)
  | fence (f : Fenced)
  deriving DecidableEq, Repr

def Passage.text : Passage → Bytes
  | prose t _ => t
  | fence f => f.text

def textOf (ps : List Passage) : Bytes := ps.flatMap Passage.text

/-- The items of passages that begin at an offset. -/
def itemsOf (start : Nat) : List Passage → List Item
  | [] => []
  | .prose t headings :: ps => headings.map .heading ++ itemsOf (start + t.length) ps
  | .fence f :: ps => .fence (f.placed start) :: itemsOf (start + f.text.length) ps

/-- The lines of a fence. The opening line has the marks and the info string, and only a fence with
nothing below it can do without the end of that line. What the first line of code loses is spaces,
if there is no tab. The closing line has at least as many marks as the opening line. -/
structure Fenced.Proper (f : Fenced) : Prop where
  marks : isMark f.head.mark ∧ 3 ≤ f.head.width
  opening : ∃ t, Text.newline ∉ t ∧ (∀ n ∈ f.infoStop, n ≤ t.length) ∧
    (f.head.text = t ++ [Text.newline] ∨ f.head.text = t ∧ f.body = [] ∧ f.foot = none)
  tagged : f.infoStop = none → f.language = []
  within : Text.newline ∉ f.margin
  spaces : byte '\t' ∉ f.margin → (∀ b ∈ f.margin, b = byte ' ') ∧ f.left = []
  closing : ∀ l ∈ f.foot, l.indent ≤ 3 ∧ l.mark = f.head.mark ∧ f.head.width ≤ l.width

/-- A fence without a closing line goes on to the end of the document. -/
inductive Laid : List Passage → Prop
  | nil : Laid []
  | prose {t : Bytes} {headings : List Bytes} {ps : List Passage} (rest : Laid ps) :
      Laid (.prose t headings :: ps)
  | fence {f : Fenced} {ps : List Passage} (proper : f.Proper) (ends : f.foot = none → ps = [])
      (rest : Laid ps) : Laid (.fence f :: ps)

/-- Other lines as the code of a fence. The first of them begins where the code did. -/
def Fenced.codeOf (f : Fenced) : List Bytes → List CodeText
  | [] => []
  | t :: ts => ⟨f.margin, t, f.left ++ t⟩ :: ts.map fun t => ⟨[], t, t⟩

/-- A fence with other lines between its opening line and its closing line, which may be indented
otherwise. -/
def Fenced.filled (f : Fenced) (ts : List Bytes) (indent : Nat) : Fenced where
  head := f.head
  language := f.language
  infoStop := f.infoStop
  left := if ts.isEmpty then [] else f.left
  body := f.codeOf ts
  foot := f.foot.map fun l => { l with indent }

/-- The second passage may take the place of the first. Lines that begin with neither a blank nor a
mark are code wherever they stand in a fence. -/
inductive Replaces : Passage → Passage → Prop
  | same (p : Passage) : Replaces p p
  | code {f : Fenced} {ts : List Bytes} {indent : Nat} (ended : Text.Ended f.head.text)
      (inert : ∀ t ∈ ts, ∃ u, Inert u ∧ t = u ++ [Text.newline]) (near : indent ≤ 3) :
      Replaces (.fence f) (.fence (f.filled ts indent))

/-- All fences stand outside of other blocks. -/
def Outermost (items : List Item) : Prop := ∀ f, .fence f ∈ items → f.nested = false

/-- What a library is relied on to do with a document whose fences all stand outside of other
blocks: each fence goes from its opening line to the first line that closes it, or to the end of the
document, the lines between are its code, a line that is indented as another one was loses as much
as that one did, and it is of no account for anything else what the code is. -/
def CommonMark (reader : Reader) : Prop :=
  ∀ doc, Outermost (reader doc) → ∃ ps, textOf ps = doc ∧ Laid ps ∧
    ∀ qs, List.Forall₂ Replaces ps qs → reader (textOf qs) = itemsOf 0 qs

section Layout

variable {f : Fenced} {p : Passage} {ps : List Passage}

@[simp] theorem textOf_cons (p : Passage) (ps : List Passage) :
    textOf (p :: ps) = p.text ++ textOf ps := List.flatMap_cons

theorem replaces_refl (ps : List Passage) : List.Forall₂ Replaces ps ps :=
  List.forall₂_same.mpr fun p _ => .same p

/-- The code begins behind the margin of its first line. -/
theorem Fenced.exists_code (f : Fenced) : ∃ code, f.code = f.margin ++ code := by
  rw [code, margin]
  cases f.body with
  | nil => exact ⟨[], rfl⟩
  | cons c cs => exact ⟨c.rest ++ cs.flatMap CodeText.line, by simp [CodeText.line]⟩

theorem Fenced.ended_head (h : f.Proper) (hf : f.body ≠ [] ∨ f.foot ≠ none) :
    Text.Ended f.head.text := by
  obtain ⟨t, -, -, ht | ⟨-, hbody, hfoot⟩⟩ := h.opening
  · rw [ht]
    exact Text.ended_line t
  · exact absurd hf (by simp [hbody, hfoot])

theorem getLast?_placeCode (c : CodeText) (cs : List CodeText) (start : Nat) :
    (placeCode start (c :: cs)).getLast?.map CodeLine.stop =
      some (start + ((c :: cs).flatMap CodeText.line).length) := by
  induction cs generalizing c start with
  | nil => simp [placeCode]
  | cons d cs ih =>
    rw [placeCode, placeCode, List.getLast?_cons_cons, ← placeCode, ih, List.flatMap_cons (x := c),
      List.length_append, Nat.add_assoc]

theorem content_placed (f : Fenced) (start : Nat) :
    (f.placed start).lines.flatMap CodeLine.text = f.body.flatMap CodeText.text := by
  have texts (cs : List CodeText) (start : Nat) :
      (placeCode start cs).flatMap CodeLine.text = cs.flatMap CodeText.text := by
    induction cs generalizing start with
    | nil => rfl
    | cons c cs ih => rw [placeCode, List.flatMap_cons, List.flatMap_cons, ih]
  exact texts _ _

end Layout

end StackC.Markdown
