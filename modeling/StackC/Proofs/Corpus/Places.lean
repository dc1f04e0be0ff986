import StackC.Corpus.Document
import StackC.Proofs.Markdown.Layout

/-! Where the code of the fences of a document stands. -/
namespace StackC.Markdown

open Corpus (beginsWithMarks behindLine bodyIn)

namespace FencedCode

variable (doc : Bytes) (f : FencedCode)

/-- Where the code begins, behind the indentation of its first line. Without code it would begin
behind the opening line. -/
def startIn : Nat := f.lines.head?.elim (behindLine doc (f.infoStop.getD 0)) CodeLine.start

def stopIn : Nat := f.lines.getLast?.elim (behindLine doc (f.infoStop.getD 0)) CodeLine.stop

/-- The fence has no code and no closing line. -/
def isUnfinished : Bool := f.lines.isEmpty && !f.closed

/-- There is code, or the line below the opening line begins like one that closes a fence. -/
def hasRoomIn : Bool := !f.lines.isEmpty || beginsWithMarks (doc.drop (f.startIn doc))

theorem bodyIn_eq (h : f.infoStop ≠ none) : bodyIn doc f =
    if f.hasRoomIn doc then .ok (f.startIn doc, f.stopIn doc) else .error .notClosed := by
  obtain ⟨n, hn⟩ := Option.ne_none_iff_exists'.mp h
  rw [bodyIn, hasRoomIn, startIn, stopIn, hn]
  cases f.lines with
  | nil => rfl
  | cons l ls =>
    rw [List.getLast?_cons]
    rfl

/-- What a library says of the places of one fence: its lines stand in the document in order, below
the opening line. -/
structure Within : Prop where
  tagged : f.infoStop = none → f.language = []
  code : ∀ l ∈ f.lines, l.start ≤ l.stop ∧ l.stop ≤ doc.length
  ordered : f.lines.Pairwise fun a b => a.stop ≤ b.start
  below : ∀ n ∈ f.infoStop, ∀ l ∈ f.lines, Text.newline ∈ (doc.take l.start).drop n

/-- What a library says of two fences, the first of which is met before the second: its code stands
above the opening line of the other, and the two are not opened on the same line. -/
structure Before (g : FencedCode) : Prop where
  code : ∀ n ∈ g.infoStop, ∀ l ∈ f.lines, l.stop ≤ n
  opening : ∀ m ∈ f.infoStop, ∀ n ∈ g.infoStop, Text.newline ∈ (doc.take n).drop m

instance : Decidable (f.Within doc) :=
  decidable_of_iff ((f.infoStop = none → f.language = []) ∧
      (∀ l ∈ f.lines, l.start ≤ l.stop ∧ l.stop ≤ doc.length) ∧
      (f.lines.Pairwise fun a b => a.stop ≤ b.start) ∧
      ∀ n ∈ f.infoStop, ∀ l ∈ f.lines, Text.newline ∈ (doc.take l.start).drop n)
    ⟨fun h => ⟨h.1, h.2.1, h.2.2.1, h.2.2.2⟩, fun h => ⟨h.tagged, h.code, h.ordered, h.below⟩⟩

instance (g : FencedCode) : Decidable (f.Before doc g) :=
  decidable_of_iff ((∀ n ∈ g.infoStop, ∀ l ∈ f.lines, l.stop ≤ n) ∧
      ∀ m ∈ f.infoStop, ∀ n ∈ g.infoStop, Text.newline ∈ (doc.take n).drop m)
    ⟨fun h => ⟨h.1, h.2⟩, fun h => ⟨h.code, h.opening⟩⟩

end FencedCode

def Item.fence? : Item → Option FencedCode
  | heading _ => none
  | fence f => some f

theorem mem_fences {items : List Item} {f : FencedCode} :
    f ∈ items.filterMap Item.fence? ↔ .fence f ∈ items := by
  rw [List.mem_filterMap]
  constructor
  · rintro ⟨_ | _, hi, hf⟩ <;> cases hf
    exact hi
  · exact fun h => ⟨_, h, rfl⟩

instance (items : List Item) : Decidable (Outermost items) :=
  decidable_of_iff (∀ f ∈ items.filterMap Item.fence?, f.nested = false)
    (by simp only [mem_fences, Outermost])

/-- What a library is relied on to say of the places in any document. -/
structure InOrder (doc : Bytes) (items : List Item) : Prop where
  within : ∀ f ∈ items.filterMap Item.fence?, f.Within doc
  before : (items.filterMap Item.fence?).Pairwise (FencedCode.Before doc)

instance (doc : Bytes) (items : List Item) : Decidable (InOrder doc items) :=
  decidable_of_iff ((∀ f ∈ items.filterMap Item.fence?, f.Within doc) ∧
      (items.filterMap Item.fence?).Pairwise (FencedCode.Before doc))
    ⟨fun h => ⟨h.1, h.2⟩, fun h => ⟨h.within, h.before⟩⟩

section Ranges

variable {doc : Bytes} {f g : FencedCode} {m n : Nat}

theorem behindLine_le (h : Text.newline ∈ (doc.take n).drop m) : behindLine doc m ≤ n := by
  have hlt : ((doc.drop m).takeWhile (· != Text.newline)).length < n - m := by
    rw [List.drop_take] at h
    by_contra hle
    have hpre : (doc.drop m).take (n - m) <+: (doc.drop m).takeWhile (· != Text.newline) :=
      List.prefix_of_prefix_length_le (List.take_prefix _ _) (List.takeWhile_prefix _)
        (Nat.le_trans (List.length_take_le _ _) (Nat.le_of_not_lt hle))
    simpa using List.all_eq_true.mp List.all_takeWhile _ (hpre.subset h)
  rw [behindLine]
  omega

theorem lt_behindLine (doc : Bytes) (n : Nat) : n < behindLine doc n := by
  rw [behindLine]
  omega

theorem FencedCode.Within.startIn_le (h : f.Within doc) : f.startIn doc ≤ f.stopIn doc := by
  have hcode := h.code
  have hordered := h.ordered
  rw [startIn, stopIn]
  cases hl : f.lines with
  | nil => exact Nat.le_refl _
  | cons l ls =>
    rw [hl] at hcode hordered
    have hfirst := hcode l List.mem_cons_self
    cases hlast : ls.getLast? with
    | none =>
      rw [List.getLast?_eq_none_iff] at hlast
      rw [hlast]
      exact hfirst.1
    | some last =>
      have hmem := List.mem_of_getLast? hlast
      have hbefore := (List.pairwise_cons.mp hordered).1 last hmem
      have hafter := hcode last (List.mem_cons_of_mem _ hmem)
      simp only [List.head?_cons, List.getLast?_cons, hlast, Option.getD_some, Option.elim_some]
      omega

theorem FencedCode.Within.stopIn_le (h : f.Within doc) (hroom : f.hasRoomIn doc) :
    f.stopIn doc ≤ doc.length := by
  have hcode := h.code
  rw [hasRoomIn, startIn] at hroom
  rw [stopIn]
  cases hl : f.lines with
  | nil =>
    rw [hl] at hroom
    by_contra hle
    rw [List.head?_nil, Option.elim_none,
      List.drop_eq_nil_of_le (by simpa using Nat.le_of_not_le hle)] at hroom
    exact absurd hroom (by decide)
  | cons l ls =>
    obtain ⟨last, hlast⟩ := Option.ne_none_iff_exists'.mp
      (mt List.getLast?_eq_none_iff.mp (List.cons_ne_nil l ls))
    rw [hlast]
    exact (hcode last (hl ▸ List.mem_of_getLast? hlast)).2

/-- The code of a fence ends before that of a later one begins. -/
theorem FencedCode.Before.stopIn_lt (h : f.Before doc g) (hg : g.Within doc)
    (hm : f.infoStop = some m) (hn : g.infoStop = some n) : f.stopIn doc < g.startIn doc := by
  have hstop : f.stopIn doc ≤ n := by
    rw [stopIn, hm]
    cases hlast : f.lines.getLast? with
    | none => exact behindLine_le (h.opening m hm n hn)
    | some last => exact h.code n hn last (List.mem_of_getLast? hlast)
  have hstart : n < g.startIn doc := by
    rw [startIn, hn]
    cases hfirst : g.lines.head? with
    | none => exact lt_behindLine doc n
    | some first =>
      have hle := behindLine_le (hg.below n hn first (List.mem_of_head? hfirst))
      exact Nat.lt_of_lt_of_le (lt_behindLine doc n) hle
  omega

end Ranges

/-- The fences of passages that begin at an offset, each with its own offset. -/
def fencesAt (start : Nat) : List Passage → List (Nat × Fenced)
  | [] => []
  | .prose t _ :: ps => fencesAt (start + t.length) ps
  | .fence f :: ps => (start, f) :: fencesAt (start + f.text.length) ps

/-- The fence stands at this offset of the document, and at its end if it has no closing line. -/
structure Fenced.Stands (doc : Bytes) (start : Nat) (f : Fenced) : Prop where
  proper : f.Proper
  split : ∃ before after, doc = before ++ (f.text ++ after) ∧ before.length = start ∧
    (f.foot = none → after = [])

section Stands

variable {doc front : Bytes} {start : Nat} {f : Fenced} {ps : List Passage}

theorem fences_itemsOf (start : Nat) (ps : List Passage) :
    (itemsOf start ps).filterMap Item.fence? =
      (fencesAt start ps).map fun x => x.2.placed x.1 := by
  induction ps generalizing start with
  | nil => rfl
  | cons p ps ih =>
    cases p with
    | prose t headings =>
      have hnone : (headings.map Item.heading).filterMap Item.fence? = [] := by
        simp [Item.fence?]
      rw [itemsOf, List.filterMap_append, hnone, ih]
      rfl
    | fence f =>
      rw [itemsOf, List.filterMap_cons_some (f := Item.fence?) rfl, ih]
      rfl

theorem exists_fencesAt (h : .fence f ∈ ps) (start : Nat) :
    ∃ pos, (pos, f) ∈ fencesAt start ps ∧ .fence (f.placed pos) ∈ itemsOf start ps := by
  induction ps generalizing start with
  | nil => cases h
  | cons p ps ih =>
    cases p with
    | prose t headings =>
      obtain ⟨pos, hat, hitem⟩ := ih (List.mem_of_ne_of_mem (by simp) h) (start + t.length)
      exact ⟨pos, hat, List.mem_append_right _ hitem⟩
    | fence g =>
      rcases List.mem_cons.mp h with he | h
      · cases he
        exact ⟨start, List.mem_cons_self, List.mem_cons_self⟩
      · obtain ⟨pos, hat, hitem⟩ := ih h (start + g.text.length)
        exact ⟨pos, List.mem_cons_of_mem _ hat, List.mem_cons_of_mem _ hitem⟩

theorem stands_of_laid (h : Laid ps) (hdoc : doc = front ++ textOf ps) :
    ∀ x ∈ fencesAt front.length ps, front.length ≤ x.1 ∧ x.2.Stands doc x.1 := by
  induction h generalizing front with
  | nil => simp [fencesAt]
  | @prose t headings ps rest ih =>
    rw [textOf_cons, ← List.append_assoc] at hdoc
    intro x hx
    have hx' := ih hdoc x (by rwa [List.length_append])
    rw [List.length_append] at hx'
    exact ⟨by omega, hx'.2⟩
  | @fence f ps proper ends rest ih =>
    rw [textOf_cons] at hdoc
    rw [fencesAt, List.forall_mem_cons]
    refine ⟨⟨Nat.le_refl _, proper, front, textOf ps, hdoc, rfl, fun hc => ?_⟩, fun x hx => ?_⟩
    · rw [ends hc]
      rfl
    · rw [← List.append_assoc] at hdoc
      have hx' := ih hdoc x (by rwa [List.length_append])
      rw [List.length_append] at hx'
      exact ⟨by omega, hx'.2⟩

theorem Laid.stands (h : Laid ps) : ∀ x ∈ fencesAt 0 ps, x.2.Stands (textOf ps) x.1 := by
  intro x hx
  have hstands := stands_of_laid h (List.nil_append _).symm
  exact (hstands x hx).2

theorem placeCode_within (cs : List CodeText) (start : Nat) :
    ((placeCode start cs).Pairwise fun a b => a.stop ≤ b.start) ∧
      ∀ l ∈ placeCode start cs, start ≤ l.start ∧ l.start ≤ l.stop ∧
        l.stop ≤ start + (cs.flatMap CodeText.line).length := by
  induction cs generalizing start with
  | nil => exact ⟨.nil, by simp [placeCode]⟩
  | cons c cs ih =>
    obtain ⟨hordered, hin⟩ := ih (start + c.line.length)
    have hline : c.line.length = c.margin.length + c.rest.length := List.length_append
    rw [placeCode, List.flatMap_cons, List.length_append]
    refine ⟨List.pairwise_cons.mpr ⟨fun l hl => (hin l hl).1, hordered⟩,
      List.forall_mem_cons.mpr ⟨?_, fun l hl => ?_⟩⟩
    · simp only
      omega
    · have hl := hin l hl
      omega

/-- The end of the opening line, where something stands below it. -/
theorem Fenced.Stands.exists_opening (h : f.Stands doc start) (hf : f.body ≠ [] ∨ f.foot ≠ none) :
    ∃ before t after, doc = before ++ (t ++ Text.newline :: (f.code ++ (f.footText ++ after))) ∧
      before.length = start ∧ Text.newline ∉ t ∧ f.head.text.length = t.length + 1 ∧
      (∀ n ∈ f.infoStop, n ≤ t.length) ∧ (f.foot = none → after = []) := by
  obtain ⟨before, after, hdoc, hstart, hends⟩ := h.split
  obtain ⟨t, ht, hinfo, hhead | ⟨-, hbody, hfoot⟩⟩ := h.proper.opening
  · refine ⟨before, t, after, ?_, hstart, ht, ?_, hinfo, hends⟩
    · rw [hdoc, Fenced.text, hhead]
      simp
    · rw [hhead, List.length_append, List.length_singleton]
  · exact absurd hf (by simp [hbody, hfoot])

theorem newline_mem_drop {before t rest : Bytes} {m n : Nat} (hm : m ≤ before.length + t.length)
    (hn : before.length + t.length < n) :
    Text.newline ∈ ((before ++ (t ++ Text.newline :: rest)).take n).drop m := by
  apply List.mem_of_getElem? (i := before.length + t.length - m)
  rw [List.getElem?_drop, Nat.add_sub_cancel' hm, List.getElem?_take_of_lt hn,
    List.getElem?_append_right (by omega), List.getElem?_append_right (by omega)]
  simp

theorem behindLine_eq {before t rest : Bytes} {n : Nat} (ht : Text.newline ∉ t) (hn : n ≤ t.length)
    (hrest : ∀ b ∈ rest.head?, b = Text.newline) :
    behindLine (before ++ (t ++ rest)) (before.length + n) = before.length + (t.length + 1) := by
  have hdrop : (before ++ (t ++ rest)).drop (before.length + n) = t.drop n ++ rest := by
    rw [← List.drop_drop, List.drop_left, List.drop_append_of_le_length hn]
  have hall : ∀ b ∈ t.drop n, (b != Text.newline) = true := by
    intro b hb
    rw [bne_iff_ne]
    rintro rfl
    exact ht (List.mem_of_mem_drop hb)
  have hnone : rest.takeWhile (· != Text.newline) = [] := by
    cases rest with
    | nil => rfl
    | cons b rest => exact List.takeWhile_cons_of_neg (by simpa using hrest b rfl)
  rw [behindLine, hdrop, List.takeWhile_append_of_pos hall, hnone, List.append_nil,
    List.length_drop]
  omega

theorem Fenced.Stands.within (h : f.Stands doc start) : (f.placed start).Within doc := by
  obtain ⟨before, after, hdoc, hstart, -⟩ := h.split
  obtain ⟨hordered, hin⟩ := placeCode_within f.body (start + f.head.text.length)
  have hlength : doc.length = start + (f.head.text.length + (f.code.length +
      f.footText.length) + after.length) := by
    rw [hdoc, Fenced.text]
    simp only [List.length_append]
    omega
  refine ⟨fun hn => h.proper.tagged (by simpa [placed] using hn), fun l hl => ?_, hordered,
    fun n hn l hl => ?_⟩
  · have hl := hin l hl
    rw [← Fenced.code] at hl
    omega
  · have hbody : f.body ≠ [] := by
      intro hnil
      rw [placed, hnil] at hl
      cases hl
    obtain ⟨before, t, after, hdoc, hstart, -, hhead, hinfo, -⟩ := h.exists_opening (.inl hbody)
    obtain ⟨k, hk, rfl⟩ := Option.map_eq_some_iff.mp hn
    have hk := hinfo k hk
    have hl := hin l hl
    rw [hdoc]
    exact newline_mem_drop (by omega) (by omega)

theorem Fenced.Stands.before (h : f.Stands doc start) (hf : f.foot ≠ none) (g : Fenced) {next : Nat}
    (hnext : start + f.text.length ≤ next) : (f.placed start).Before doc (g.placed next) := by
  obtain ⟨-, hin⟩ := placeCode_within f.body (start + f.head.text.length)
  have hlength : f.text.length = f.head.text.length + (f.code.length + f.footText.length) := by
    rw [Fenced.text, List.length_append, List.length_append]
  refine ⟨fun n hn l hl => ?_, fun m hm n hn => ?_⟩
  · obtain ⟨k, -, rfl⟩ := Option.map_eq_some_iff.mp hn
    have hl := hin l hl
    rw [← Fenced.code] at hl
    omega
  · obtain ⟨before, t, after, hdoc, hstart, -, hhead, hinfo, -⟩ := h.exists_opening (.inr hf)
    obtain ⟨i, hi, rfl⟩ := Option.map_eq_some_iff.mp hm
    obtain ⟨k, -, rfl⟩ := Option.map_eq_some_iff.mp hn
    have hi := hinfo i hi
    rw [hdoc]
    exact newline_mem_drop (by omega) (by omega)

/-- The places in a document that is laid out as passages. -/
theorem inOrder_of_laid (h : Laid ps) : InOrder (textOf ps) (itemsOf 0 ps) := by
  constructor
  · rw [fences_itemsOf]
    intro c hc
    obtain ⟨x, hx, rfl⟩ := List.mem_map.mp hc
    exact (h.stands x hx).within
  · -- The fences before a given one are not at the end of the document, so they are closed.
    have hbefore (doc front : Bytes) (hdoc : doc = front ++ textOf ps) :
        ((fencesAt front.length ps).map fun x => x.2.placed x.1).Pairwise
          (FencedCode.Before doc) := by
      induction h generalizing front with
      | nil => exact .nil
      | @prose t headings ps rest ih =>
        rw [textOf_cons, ← List.append_assoc] at hdoc
        have hrest := ih (front ++ t) hdoc
        rwa [List.length_append] at hrest
      | @fence f ps proper ends rest ih =>
        have hdoc' := hdoc
        rw [textOf_cons, ← List.append_assoc] at hdoc
        have hrest := ih (front ++ f.text) hdoc
        have hnext := stands_of_laid rest hdoc
        rw [List.length_append] at hrest hnext
        have hfirst := stands_of_laid (.fence proper ends rest) hdoc' _ List.mem_cons_self
        rw [fencesAt, List.map_cons]
        refine List.pairwise_cons.mpr ⟨fun c hc => ?_, hrest⟩
        obtain ⟨x, hx, rfl⟩ := List.mem_map.mp hc
        refine hfirst.2.before (fun hnone => ?_) x.2 (hnext x hx).1
        rw [ends hnone] at hx
        cases hx
    rw [fences_itemsOf]
    exact hbefore (textOf ps) [] rfl

theorem Fenced.Stands.range (h : f.Stands doc start) (ht : f.infoStop ≠ none)
    (hf : f.body ≠ [] ∨ f.foot ≠ none) :
    (f.placed start).startIn doc = start + f.head.text.length + f.margin.length ∧
      (f.placed start).stopIn doc = start + f.head.text.length + f.code.length := by
  obtain ⟨n, hn⟩ := Option.ne_none_iff_exists'.mp ht
  obtain ⟨before, t, after, hdoc, hstart, hline, hhead, hinfo, -⟩ := h.exists_opening hf
  have hbelow : behindLine doc (((f.placed start).infoStop).getD 0) =
      start + f.head.text.length := by
    have hpos : (f.placed start).infoStop.getD 0 = before.length + n := by
      simp [placed, hn, hstart]
    rw [hpos, hdoc, behindLine_eq hline (hinfo n hn) (by simp)]
    omega
  rw [FencedCode.startIn, FencedCode.stopIn, hbelow, placed, margin, Fenced.code]
  cases f.body with
  | nil => exact ⟨rfl, rfl⟩
  | cons c cs =>
    obtain ⟨last, hlast, hstop⟩ := Option.map_eq_some_iff.mp
      (getLast?_placeCode c cs (start + f.head.text.length))
    rw [hlast, ← hstop]
    exact ⟨rfl, rfl⟩

theorem MarkLine.beginsWithMarks_text {l : MarkLine} (hmark : isMark l.mark) (hwidth : 3 ≤ l.width)
    (rest : Bytes) : beginsWithMarks (l.text ++ rest) := by
  obtain ⟨k, hk⟩ := Nat.exists_eq_add_of_le hwidth
  have hspaces : ∀ b ∈ List.replicate l.indent (byte ' '), (b == byte ' ') = true := by
    intro b hb
    rw [List.eq_of_mem_replicate hb]
    rfl
  rw [beginsWithMarks, text, List.append_assoc, List.dropWhile_append_of_pos hspaces, hk,
    ← List.replicate_append_replicate]
  rw [isMark, Bool.or_eq_true, beq_iff_eq, beq_iff_eq] at hmark
  rcases hmark with hm | hm <;> rw [hm] <;> rfl

theorem Fenced.Stands.exists_rest (h : f.Stands doc start) :
    ∃ after, doc.drop (start + f.head.text.length) = f.code ++ (f.footText ++ after) ∧
      (f.foot = none → after = []) := by
  obtain ⟨before, after, hdoc, hstart, hends⟩ := h.split
  refine ⟨after, ?_, hends⟩
  rw [hdoc, Fenced.text, ← hstart, ← List.drop_drop, List.drop_left, List.append_assoc,
    List.drop_left, List.append_assoc]

/-- Nothing is left behind an opening line at the end of the document. -/
theorem Fenced.Stands.drop_eq_nil (h : f.Stands doc start) (hf : f.body = [] ∧ f.foot = none)
    {n : Nat} (hn : f.infoStop = some n) : doc.drop (behindLine doc (start + n)) = [] := by
  obtain ⟨before, after, hdoc, rfl, hends⟩ := h.split
  obtain ⟨t, hline, hinfo, hhead⟩ := h.proper.opening
  have hdoc : doc = before ++ f.head.text := by
    rw [hdoc, hends hf.2, Fenced.text, code, footText, hf.1, hf.2]
    simp
  obtain ⟨rest, hhead, hrest, hlength⟩ : ∃ rest, f.head.text = t ++ rest ∧
      (∀ b ∈ rest.head?, b = Text.newline) ∧ rest.length ≤ 1 := by
    rcases hhead with hhead | ⟨hhead, -⟩
    · exact ⟨_, hhead, by simp, by simp⟩
    · exact ⟨[], by simpa using hhead, by simp, by simp⟩
  rw [hdoc, hhead, behindLine_eq hline (hinfo n hn) hrest]
  apply List.drop_eq_nil_of_le
  rw [List.length_append, List.length_append]
  omega

/-- There is room for code in a fence with an info string if there is code or a closing line. -/
theorem Fenced.Stands.hasRoomIn_iff (h : f.Stands doc start) (ht : f.infoStop ≠ none) :
    (f.placed start).hasRoomIn doc ↔ f.body ≠ [] ∨ f.foot ≠ none := by
  by_cases hf : f.body ≠ [] ∨ f.foot ≠ none
  · refine iff_of_true ?_ hf
    rw [FencedCode.hasRoomIn, (h.range ht hf).1]
    cases hbody : f.body with
    | cons c cs => simp [placed, hbody, placeCode]
    | nil =>
      obtain ⟨l, hl⟩ := Option.ne_none_iff_exists'.mp (hf.resolve_left fun hne => hne hbody)
      obtain ⟨-, hmark, hwidth⟩ := h.proper.closing l hl
      obtain ⟨after, hrest, -⟩ := h.exists_rest
      have hmargin : f.margin.length = 0 := by simp [margin, hbody]
      have hfoot : f.code ++ (f.footText ++ after) = l.text ++ after := by
        simp [code, footText, hbody, hl]
      rw [hmargin, Nat.add_zero, hrest, hfoot, l.beginsWithMarks_text (hmark ▸ h.proper.marks.1)
        (Nat.le_trans h.proper.marks.2 hwidth), Bool.or_true]
  · refine iff_of_false (fun hroom => ?_) hf
    rw [not_or, not_not, not_not] at hf
    obtain ⟨n, hn⟩ := Option.ne_none_iff_exists'.mp ht
    have hempty := h.drop_eq_nil hf hn
    simp [FencedCode.hasRoomIn, FencedCode.startIn, placed, placeCode, hf.1, hn, hempty,
      beginsWithMarks, ascii] at hroom

end Stands

end StackC.Markdown
