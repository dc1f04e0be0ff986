import StackC.Proofs.Corpus.Renewal
import StackC.Proofs.Markdown.Reading

/-! Which documents stay as they are once they have been brought up to date. -/
namespace StackC

/-- What stands before a place on its line. -/
def Text.beforeOnLine (t : Bytes) (pos : Nat) : Bytes :=
  ((t.take pos).reverse.takeWhile (· != newline)).reverse

namespace Markdown

namespace FencedCode

/-- What is left of the first line of code when the code is taken out. -/
def marginIn (doc : Bytes) (f : FencedCode) : Bytes := Text.beforeOnLine doc (f.startIn doc)

def spacesBehind (doc : Bytes) (f : FencedCode) : Nat :=
  ((doc.drop (f.stopIn doc)).takeWhile (· == byte ' ')).length

/-- The fence ends where it did when its code is taken out: it has a closing line, which behind what
is left of the first line of code is still indented by no more than three spaces. -/
structure Stays (doc : Bytes) (f : FencedCode) : Prop where
  closed : f.closed
  spaced : byte '\t' ∉ f.marginIn doc
  near : (f.marginIn doc).length + f.spacesBehind doc ≤ 3

instance (doc : Bytes) (f : FencedCode) : Decidable (f.Stays doc) :=
  decidable_of_iff (f.closed ∧ byte '\t' ∉ f.marginIn doc ∧
      (f.marginIn doc).length + f.spacesBehind doc ≤ 3)
    ⟨fun h => ⟨h.1, h.2.1, h.2.2⟩, fun h => ⟨h.closed, h.spaced, h.near⟩⟩

end FencedCode

section Margins

variable {doc : Bytes} {start : Nat} {f : Fenced}

theorem beforeOnLine_eq {before t : Bytes} (hb : Text.Ended before) (ht : Text.newline ∉ t)
    (rest : Bytes) :
    Text.beforeOnLine (before ++ (t ++ rest)) (before.length + t.length) = t := by
  obtain ⟨u, rfl⟩ : ∃ u, before = u ++ [Text.newline] := List.getLast?_eq_some_iff.mp hb
  have htake : (u ++ [Text.newline] ++ (t ++ rest)).take ((u ++ [Text.newline]).length + t.length) =
      u ++ [Text.newline] ++ t := by
    rw [← List.append_assoc]
    exact List.take_left' List.length_append
  have hall : ∀ b ∈ t.reverse, (b != Text.newline) = true := by
    intro b hb
    rw [bne_iff_ne]
    rintro rfl
    exact ht (List.mem_reverse.mp hb)
  rw [Text.beforeOnLine, htake, List.reverse_append, List.takeWhile_append_of_pos hall]
  simp

theorem Fenced.Stands.beforeOnLine_eq (h : f.Stands doc start) (hf : f.body ≠ [] ∨ f.foot ≠ none) :
    Text.beforeOnLine doc (start + f.head.text.length + f.margin.length) = f.margin := by
  obtain ⟨before, after, hdoc, hstart, -⟩ := h.split
  obtain ⟨code, hcode⟩ := f.exists_code
  have hsplit : doc = (before ++ f.head.text) ++ (f.margin ++ (code ++ (f.footText ++ after))) := by
    rw [hdoc, Fenced.text, hcode]
    simp only [List.append_assoc]
  rw [hsplit, ← hstart, ← List.length_append]
  exact Markdown.beforeOnLine_eq (Text.ended_append _ (ended_head h.proper hf))
    h.proper.within _

theorem Fenced.Stands.marginIn_eq (h : f.Stands doc start) (ht : f.infoStop ≠ none)
    (hf : f.body ≠ [] ∨ f.foot ≠ none) : (f.placed start).marginIn doc = f.margin := by
  rw [FencedCode.marginIn, (h.range ht hf).1, h.beforeOnLine_eq hf]

/-- A tab in the margin stands before the first line of code. -/
theorem Fenced.Stands.tab_notMem (h : f.Stands doc start)
    (hl : ∀ l ∈ (f.placed start).lines, byte '\t' ∉ Text.beforeOnLine doc l.start) :
    byte '\t' ∉ f.margin := by
  cases hb : f.body with
  | nil => simp [margin, hb]
  | cons c cs =>
    have hbody : f.body ≠ [] := hb ▸ List.cons_ne_nil c cs
    have hmargin : f.margin = c.margin := by rw [margin, hb]; rfl
    rw [placed, hb, placeCode, List.forall_mem_cons, ← hmargin, h.beforeOnLine_eq (.inl hbody)]
      at hl
    exact hl.1

theorem Fenced.Stands.spacesBehind_eq (h : f.Stands doc start) (ht : f.infoStop ≠ none)
    (hf : f.foot ≠ none) : (f.placed start).spacesBehind doc = f.footIndent := by
  obtain ⟨l, hl⟩ := Option.ne_none_iff_exists'.mp hf
  obtain ⟨-, hmark, hwidth⟩ := h.proper.closing l hl
  obtain ⟨after, hrest, -⟩ := h.exists_rest
  have hdrop : doc.drop (start + f.head.text.length + f.code.length) = l.text ++ after := by
    rw [← List.drop_drop, hrest, List.drop_left, footText, hl]
    rfl
  have hspaces : ∀ b ∈ List.replicate l.indent (byte ' '), (b == byte ' ') = true := by
    intro b hb
    rw [List.eq_of_mem_replicate hb]
    rfl
  have hmarks : isMark l.mark := hmark ▸ h.proper.marks.1
  have hnone : (List.replicate l.width l.mark ++ (l.tail ++ after)).takeWhile (· == byte ' ') =
      [] := by
    obtain ⟨k, hk⟩ := Nat.exists_eq_add_of_le (Nat.le_trans h.proper.marks.2 hwidth)
    rw [isMark, Bool.or_eq_true, beq_iff_eq, beq_iff_eq] at hmarks
    rw [hk, ← List.replicate_append_replicate]
    rcases hmarks with hm | hm <;> rw [hm] <;> rfl
  rw [FencedCode.spacesBehind, (h.range ht (.inr hf)).2, hdrop, MarkLine.text, List.append_assoc,
    List.append_assoc, List.takeWhile_append_of_pos hspaces, hnone, footIndent, hl]
  simp

theorem Fenced.Stands.staysWithoutCode (h : f.Stands doc start) (ht : f.infoStop ≠ none)
    (hs : (f.placed start).Stays doc) : f.StaysWithoutCode := by
  have hfoot : f.foot ≠ none := Option.isSome_iff_ne_none.mp hs.closed
  obtain ⟨-, hspaced, hnear⟩ := hs
  rw [h.marginIn_eq ht (.inr hfoot)] at hspaced hnear
  rw [h.spacesBehind_eq ht hfoot] at hnear
  exact ⟨hfoot, hspaced, hnear⟩

end Margins

end Markdown

namespace Corpus

open Markdown

/-- The fence is for the tokens of a program that has none. -/
def Golden.Bare (g : Golden) : Prop :=
  g.mode = .tokens ∧ ∃ p ∈ g.program, (compile .tokens p).result = .ok []

/-- Every fence that is left without code ends where it did. -/
def Settled (doc : Bytes) (gs : List Golden) : Prop := ∀ g ∈ gs, g.Bare → g.fence.Stays doc

section Settled

variable {doc front new : Bytes} {input : Option Bytes} {ps : List Passage} {g : Golden}
  {reader : Reader}

/-- A fence is left without code if it is for tokens and there are none. -/
theorem Golden.Renewed.bare (h : g.Renewed doc [])
    (hm : goldenMode? g.fence.language = some g.mode) : g.Bare := by
  obtain ⟨p, hp, hc⟩ := h.output
  have hast := (language_of_goldenMode? hm).1
  cases hmode : g.mode with
  | ast => exact absurd hmode hast
  | asm => exact absurd (hmode ▸ hc) compile_asm_ne_nil
  | tokens => exact ⟨hmode, p, hp, hmode ▸ hc⟩

private theorem ready_of_settled (hl : Laid ps) (hdoc : doc = front ++ textOf ps)
    (hout : ∀ g ∈ goldensFrom input (itemsOf front.length ps), ∃ out, g.Renewed doc out)
    (hs : Settled doc (goldensFrom input (itemsOf front.length ps))) : Ready input ps := by
  induction hl generalizing front input with
  | nil => exact .nil
  | @prose t headings ps rest ih =>
    rw [textOf_cons, ← List.append_assoc] at hdoc
    rw [itemsOf, goldensFrom_prose, ← List.length_append] at hout hs
    exact .prose (ih hdoc hout hs)
  | @fence f ps proper ends rest ih =>
    have hstands := (stands_of_laid (.fence proper ends rest) hdoc _ List.mem_cons_self).2
    rw [textOf_cons, ← List.append_assoc] at hdoc
    rw [itemsOf, goldensFrom_fence] at hout hs
    cases hm : goldenMode? f.language with
    | none =>
      rw [hm, ← List.length_append] at hout hs
      exact .kept hm (ih hdoc hout hs)
    | some mode =>
      rw [hm, programAfter_golden hm, ← List.length_append] at hout hs
      obtain ⟨⟨out, hnew⟩, hout⟩ := List.forall_mem_cons.mp hout
      obtain ⟨hstays, hs⟩ := List.forall_mem_cons.mp hs
      have hinfo : f.infoStop ≠ none := by
        intro hnone
        rw [proper.tagged hnone] at hm
        cases hm
      have hroom := (hstands.hasRoomIn_iff hinfo).mp hnew.room
      obtain ⟨i, hi, hc⟩ := hnew.output
      simp only at hi hc
      subst hi
      refine .golden hm hc ⟨hroom, ?_⟩ (ih hdoc hout hs)
      rintro rfl
      exact hstands.staysWithoutCode hinfo (hstays (hnew.bare hm))

/-- A document that can be brought up to date, and what it is then read as. -/
theorem exists_renew (hlib : CommonMark reader) (hout : Outermost (reader doc))
    (hs : Settled doc (goldens (reader doc))) (h : updateBy reader doc = .ok new) :
    ∃ ps, textOf ps = doc ∧ reader doc = itemsOf 0 ps ∧ Laid ps ∧ Ready none ps ∧
      new = textOf (renew none ps) ∧ reader new = itemsOf 0 (renew none ps) := by
  obtain ⟨ps, rfl, hlaid, hreplaced⟩ := hlib doc hout
  have hread := hreplaced ps (replaces_refl ps)
  have hin : InOrder (textOf ps) (reader (textOf ps)) := hread ▸ inOrder_of_laid hlaid
  obtain ⟨outs, houts, -⟩ := (updateBy_eq_ok hin).mp h
  have hnew := exists_renewed_iff.mp ⟨outs, houts⟩
  rw [hread, goldens_eq] at hnew hs
  have hready : Ready none ps := ready_of_settled hlaid (List.nil_append _).symm hnew hs
  rw [updateBy_of_ready hready hlaid hread] at h
  cases h
  exact ⟨ps, rfl, hread, hlaid, hready, rfl, hreplaced _ (hready.renew hlaid).2.2⟩

/-- A run on a file that leaves it as it is. -/
structure FileStep.Idle (doc : Bytes) (step : FileStep) : Prop where
  text : step.text = doc
  changed : step.changed = false
  failed : step.failed = none

end Settled

end Corpus

end StackC
