import StackC.Markdown.Read
import StackC.Proofs.Markdown.Indent

/-! The reader reads documents as CommonMark lays them out. -/
namespace StackC.Markdown

namespace Fenced

def lines (f : Fenced) : List Bytes :=
  f.head.text :: (f.body.map CodeText.line ++ (f.foot.map MarkLine.text).toList)

theorem flatten_lines (f : Fenced) : f.lines.flatten = f.text := by
  rw [lines, text, code, footText, List.flatten_cons, List.flatten_append, ← List.flatMap_def]
  cases f.foot <;> simp

end Fenced

def Passage.lines : Passage → List Bytes
  | prose t _ => [t]
  | fence f => f.lines

theorem flatten_flatMap_lines (ps : List Passage) :
    (ps.flatMap Passage.lines).flatten = textOf ps := by
  induction ps with
  | nil => rfl
  | cons p ps ih =>
    rw [List.flatMap_cons, List.flatten_append, ih, textOf_cons]
    cases p with
    | prose t headings => simp [Passage.lines, Passage.text]
    | fence f => rw [Passage.lines, f.flatten_lines, Passage.text]

/-- No fence is open. -/
def Reading.isOutside : Reading → Bool
  | code _ _ _ => false
  | _ => true

/-- The line belongs to no fence, wherever it stands. -/
def Stands (p : Place) (t : Bytes) (headings : List Bytes) (next : Place) : Prop :=
  next.reading.isOutside ∧ ∀ start, p.step ⟨t, start⟩ = (headings.map .heading, next)

/-- The line opens a fence outside of quotes, wherever it stands. -/
def Opens (p : Place) (t : Bytes) (o : Opening) : Prop :=
  o.Proper t ∧ ∀ start, p.step ⟨t, start⟩ = ([], ⟨false, .code o start []⟩)

/-- The line opens a fence in a quote, wherever it stands. -/
def OpensNested (p : Place) (t : Bytes) : Prop :=
  ∀ start, ∃ o start', p.step ⟨t, start⟩ = ([], ⟨true, .code o start' []⟩)

section Steps

def Reading.lines : Reading → List Bytes
  | paragraph lines => lines
  | _ => []

private theorem lineItems_eq (r : Reading) (l : Line) : lineItems r l =
    if isBlankLine l.text then ([], .free)
    else if !r.lines.isEmpty && isUnderline l.text then ([underlined r.lines], .free)
    else if isBreak l.text then ([], .free)
    else match headingLine? l.text, opening? l.text with
      | some t, _ => ([.heading (plainText t)], .free)
      | none, some o => ([], .code o l.start [])
      | none, none =>
        if r.lines.isEmpty && (unindented? l.text).isNone then ([], .free)
        else ([], .paragraph (l.text :: r.lines)) := by
  cases r <;> rfl

/-- What a line is that belongs to no open fence does not depend on where it stands. -/
theorem lineItems_cases (r : Reading) (t : Bytes) :
    (∃ o, opening? t = some o ∧ ∀ start, lineItems r ⟨t, start⟩ = ([], .code o start [])) ∨
      ∃ (headings : List Bytes) (next : Reading), next.isOutside ∧
        ∀ start, lineItems r ⟨t, start⟩ = (headings.map .heading, next) := by
  simp only [lineItems_eq]
  by_cases hblank : isBlankLine t
  · exact .inr ⟨[], .free, rfl, fun _ => if_pos hblank⟩
  by_cases hunder : !r.lines.isEmpty && isUnderline t
  · obtain ⟨text, htext⟩ : ∃ text, underlined r.lines = .heading text := ⟨_, rfl⟩
    refine .inr ⟨[text], .free, rfl, fun _ => ?_⟩
    rw [if_neg hblank, if_pos hunder, htext]
    rfl
  by_cases hbreak : isBreak t
  · refine .inr ⟨[], .free, rfl, fun _ => ?_⟩
    rw [if_neg hblank, if_neg hunder, if_pos hbreak]
    rfl
  simp only [hblank, hunder, hbreak, Bool.false_eq_true, ↓reduceIte]
  cases hhead : headingLine? t with
  | some text => exact .inr ⟨[plainText text], .free, rfl, fun _ => rfl⟩
  | none =>
    cases hopen : opening? t with
    | some o => exact .inl ⟨o, rfl, fun _ => rfl⟩
    | none =>
      by_cases hcode : r.lines.isEmpty && (unindented? t).isNone
      · exact .inr ⟨[], .free, rfl, fun _ => if_pos hcode⟩
      · exact .inr ⟨[], .paragraph (t :: r.lines), rfl, fun _ => if_neg hcode⟩

variable {p : Place}

theorem itemsFrom_cons (p : Place) (l : Line) (ls : List Line) :
    itemsFrom p (l :: ls) = (p.step l).1 ++ itemsFrom (p.step l).2 ls := rfl

theorem read_outside (h : p.reading.isOutside) (l : Line) :
    p.read l = ((lineItems p.reading l).1, ⟨p.nested, (lineItems p.reading l).2⟩) := by
  obtain ⟨nested, reading⟩ := p
  cases reading with
  | code => cases h
  | _ => rfl

theorem isOutside_enter (h : p.reading.isOutside) (nested : Bool) :
    (p.enter nested).reading.isOutside := by
  rw [Place.enter]
  split
  · exact h
  · rfl

@[simp] theorem nested_enter (p : Place) (nested : Bool) : (p.enter nested).nested = nested := by
  rw [Place.enter]
  split
  · next h => exact h
  · rfl

theorem finish_outside (h : p.reading.isOutside) : p.finish = [] := by
  obtain ⟨nested, reading⟩ := p
  cases reading with
  | code => cases h
  | _ => rfl

/-- A line outside of fences is read in a quote or outside. -/
theorem step_outside (h : p.reading.isOutside) (t : Bytes) (start : Nat) : p.step ⟨t, start⟩ =
    match quoted? t with
    | some inner => (p.enter true).read ⟨inner, start + (t.length - inner.length)⟩
    | none => (p.enter false).read ⟨t, start⟩ := by
  have hminds : p.minds := by
    obtain ⟨nested, reading⟩ := p
    cases reading with
    | code => cases h
    | _ => cases nested <;> rfl
  rw [Place.step, if_pos hminds]
  cases quoted? t with
  | some inner => rfl
  | none => simp [finish_outside h]

private theorem step_cases (h : p.reading.isOutside) (t : Bytes) :
    (∃ o, Opens p t o) ∨ (∃ headings next, Stands p t headings next) ∨ OpensNested p t := by
  simp only [Opens, Stands, OpensNested, step_outside h]
  cases quoted? t with
  | some inner =>
    have hout := isOutside_enter h true
    simp only [read_outside hout, nested_enter]
    rcases lineItems_cases (p.enter true).reading inner with ⟨o, -, ho⟩ | ⟨headings, next, hn, hs⟩
    · exact .inr (.inr fun start => ⟨o, _, by rw [ho]⟩)
    · exact .inr (.inl ⟨headings, ⟨true, next⟩, hn, fun start => by rw [hs]⟩)
  | none =>
    have hout := isOutside_enter h false
    simp only [read_outside hout, nested_enter]
    rcases lineItems_cases (p.enter false).reading t with ⟨o, hopen, ho⟩ | ⟨headings, next, hn, hs⟩
    · exact .inl ⟨o, Opening.proper_of_opening? hopen, fun start => by rw [ho]⟩
    · exact .inr (.inl ⟨headings, ⟨false, next⟩, hn, fun start => by rw [hs]⟩)

/-- A fence that is open in a quote is one of the items. -/
theorem not_outermost_nested (o : Opening) (start : Nat) (ls : List CodeLine) (rest : List Line) :
    ¬Outermost (itemsFrom ⟨true, .code o start ls⟩ rest) := by
  have hfence (ls : List CodeLine) (closed : Bool) (items : List Item) :
      ¬Outermost (fenceOf true o start ls closed :: items) := fun h =>
    absurd (h _ List.mem_cons_self) (by simp)
  induction rest generalizing ls with
  | nil => exact hfence ls false []
  | cons l rest ih =>
    have hminds : Place.minds ⟨true, .code o start ls⟩ = true := rfl
    rw [itemsFrom_cons, Place.step, if_pos hminds]
    cases quoted? l.text with
    | none => exact hfence ls false _
    | some inner =>
      simp only [Place.enter, if_true, Place.read]
      split
      · exact hfence ls true _
      · exact ih _

end Steps

/-- The lines of the fence are read as this fence, once its first line has opened it. -/
structure Fenced.ReadWith (o : Opening) (f : Fenced) : Prop where
  head : f.head = o.line f.head.text
  language : f.language = o.language
  infoStop : f.infoStop = o.infoStop
  left : f.left = leftBy o.indent f.margin
  body : ∀ c ∈ f.body, o.closedBy c.line = false ∧ o.codeText c.line = c
  foot : ∀ l ∈ f.foot, o.closedBy l.text ∧ l.indent ≤ 3 ∧ l.mark = o.mark ∧ o.width ≤ l.width

/-- The lines of the passages are read as these passages. -/
inductive Reads : Place → List Passage → Prop
  | nil {p : Place} : Reads p []
  | prose {p next : Place} {t : Bytes} {headings : List Bytes} {ps : List Passage}
      (stands : Stands p t headings next) (rest : Reads next ps) :
      Reads p (.prose t headings :: ps)
  | fence {p : Place} {o : Opening} {f : Fenced} {ps : List Passage}
      (opens : Opens p f.head.text o) (read : f.ReadWith o) (ends : f.foot = none → ps = [])
      (rest : Reads ⟨false, .free⟩ ps) : Reads p (.fence f :: ps)

section Code

variable {o : Opening} {start : Nat}

theorem step_code (o : Opening) (start : Nat) (front : List CodeLine) (l : Line) :
    Place.step ⟨false, .code o start front⟩ l =
      if o.closedBy l.text then ([fenceOf false o start front true], ⟨false, .free⟩)
      else ([], ⟨false, .code o start (o.codeLine l :: front)⟩) := rfl

theorem itemsFrom_code {cs : List CodeText} (ho : o.indent ≤ 3)
    (hc : ∀ c ∈ cs, o.closedBy c.line = false ∧ o.codeText c.line = c) (ls : List Bytes) (pos : Nat)
    (front : List CodeLine) :
    itemsFrom ⟨false, .code o start front⟩ (placeLines pos (cs.map CodeText.line ++ ls)) =
      itemsFrom ⟨false, .code o start ((placeCode pos cs).reverse ++ front)⟩
        (placeLines (pos + (cs.flatMap CodeText.line).length) ls) := by
  induction cs generalizing pos front with
  | nil => rfl
  | cons c cs ih =>
    rw [List.forall_mem_cons] at hc
    obtain ⟨⟨hopen, htext⟩, hc⟩ := hc
    have hline : o.codeLine ⟨c.line, pos⟩ =
        ⟨pos + c.margin.length, pos + c.line.length, c.text⟩ := by
      rw [Opening.codeLine_eq ho, htext]
    rw [List.map_cons, List.cons_append, placeLines, itemsFrom_cons, step_code, hopen,
      if_neg Bool.false_ne_true, hline, List.nil_append, ih hc, placeCode, List.reverse_cons,
      List.append_assoc, List.singleton_append, List.flatMap_cons, List.length_append,
      Nat.add_assoc]

/-- Code goes on to the first line that closes it, if there is one. -/
theorem exists_code (o : Opening) (ls : List Bytes) : ∃ body rest,
    ls = body ++ rest ∧ (∀ t ∈ body, o.closedBy t = false) ∧ ∀ t ∈ rest.head?, o.closedBy t := by
  refine ⟨ls.takeWhile (!o.closedBy ·), ls.dropWhile (!o.closedBy ·),
    List.takeWhile_append_dropWhile.symm, fun t ht => ?_, fun t ht => ?_⟩
  · simpa using List.all_eq_true.mp List.all_takeWhile t ht
  · have h := List.head?_dropWhile_not (!o.closedBy ·) ls
    rw [Option.mem_def.mp ht] at h
    simpa using h

end Code

section Reads

variable {p : Place} {f : Fenced} {ps qs : List Passage}

theorem fenceOf_eq {o : Opening} (read : f.ReadWith o) (start : Nat) :
    fenceOf false o start ((placeCode (start + f.head.text.length) f.body).reverse ++ [])
      f.foot.isSome = .fence (f.placed start) := by
  rw [fenceOf, Fenced.placed, read.language, read.infoStop, List.append_nil, List.reverse_reverse]

/-- Behind its opening line a fence goes on to its closing line. -/
theorem itemsFrom_fence {o : Opening} {l : MarkLine} (opens : Opens p f.head.text o)
    (read : f.ReadWith o) (hl : f.foot = some l) (start : Nat) (ls : List Bytes) :
    itemsFrom p (placeLines start (f.lines ++ ls)) = .fence (f.placed start) ::
      itemsFrom ⟨false, .free⟩ (placeLines (start + f.text.length) ls) := by
  have hlength : start + f.text.length = start + f.head.text.length +
      (f.body.flatMap CodeText.line).length + l.text.length := by
    rw [Fenced.text, Fenced.code, Fenced.footText, hl]
    simp only [List.length_append, Option.elim_some]
    omega
  rw [Fenced.lines, hl, Option.map_some, Option.toList_some, List.cons_append, List.append_assoc,
    placeLines, itemsFrom_cons, opens.2, List.nil_append, itemsFrom_code opens.1.indent read.body,
    List.singleton_append, placeLines, itemsFrom_cons, step_code, (read.foot l hl).1, if_pos rfl,
    hlength, ← fenceOf_eq read, hl]
  rfl

/-- A fence without a closing line goes on to the end. -/
theorem itemsFrom_open {o : Opening} (opens : Opens p f.head.text o) (read : f.ReadWith o)
    (hf : f.foot = none) (start : Nat) :
    itemsFrom p (placeLines start f.lines) = [.fence (f.placed start)] := by
  rw [Fenced.lines, hf, Option.map_none, Option.toList_none, placeLines, itemsFrom_cons, opens.2,
    List.nil_append, itemsFrom_code opens.1.indent read.body, ← fenceOf_eq read, hf]
  rfl

theorem Reads.items_eq (h : Reads p ps) (hp : p.reading.isOutside) (start : Nat) :
    itemsFrom p (placeLines start (ps.flatMap Passage.lines)) = itemsOf start ps := by
  induction h generalizing start with
  | nil => exact finish_outside hp
  | prose stands rest ih =>
    rw [List.flatMap_cons, Passage.lines, List.singleton_append, placeLines, itemsFrom_cons,
      stands.2, itemsOf, ih stands.1]
  | @fence p o f ps opens read ends rest ih =>
    rw [List.flatMap_cons, Passage.lines, itemsOf]
    cases hf : f.foot with
    | none =>
      rw [ends hf, List.flatMap_nil, List.append_nil, itemsFrom_open opens read hf, itemsOf]
    | some l => rw [itemsFrom_fence opens read hf, ih rfl]

def fencedOf (o : Opening) (t : Bytes) (body : List Bytes) (foot : Option MarkLine) : Fenced where
  head := o.line t
  language := o.language
  infoStop := o.infoStop
  left := leftBy o.indent ((body.map o.codeText).head?.elim [] CodeText.margin)
  body := body.map o.codeText
  foot

section FencedOf

variable {o : Opening} {t : Bytes} {body : List Bytes} {foot : Option MarkLine}

theorem readWith_fencedOf (ho : o.Proper t) (hb : ∀ t ∈ body, o.closedBy t = false)
    (hf : ∀ l ∈ foot, o.closedBy l.text ∧ l.indent ≤ 3 ∧ l.mark = o.mark ∧ o.width ≤ l.width) :
    (fencedOf o t body foot).ReadWith o where
  head := by rw [fencedOf, ho.text]
  language := rfl
  infoStop := rfl
  left := rfl
  body := by
    intro c hc
    obtain ⟨u, hu, rfl⟩ := List.mem_map.mp hc
    rw [o.line_codeText]
    exact ⟨hb u hu, rfl⟩
  foot := hf

theorem lines_fencedOf (ho : o.Proper t) :
    (fencedOf o t body foot).lines = t :: (body ++ (foot.map MarkLine.text).toList) := by
  rw [Fenced.lines, fencedOf, ho.text, o.map_line_codeText]

end FencedOf

/-- The lines behind an opening line are those of its fence, and of what follows it. -/
theorem exists_fence {o : Opening} {t : Bytes} (ho : Opens p t o) (ts : List Bytes) :
    ∃ (f : Fenced) (rest : List Bytes), t :: ts = f.lines ++ rest ∧ Opens p f.head.text o ∧
      f.ReadWith o ∧ (f.foot = none → rest = []) := by
  obtain ⟨body, rest, rfl, hb, hc⟩ := exists_code o ts
  have hopens (foot : Option MarkLine) : Opens p (fencedOf o t body foot).head.text o := by
    rwa [fencedOf, ho.1.text]
  cases rest with
  | nil =>
    refine ⟨fencedOf o t body none, [], ?_, hopens none,
      readWith_fencedOf ho.1 hb (by simp), fun _ => rfl⟩
    rw [lines_fencedOf ho.1]
    simp
  | cons c rest =>
    obtain ⟨l, rfl, hl⟩ := Opening.exists_line_of_closedBy (hc c rfl)
    refine ⟨fencedOf o t body (some l), rest, ?_, hopens (some l),
      readWith_fencedOf ho.1 hb (by simpa using ⟨hc _ rfl, hl⟩), by simp [fencedOf]⟩
    rw [lines_fencedOf ho.1]
    simp

/-- Lines whose fences all stand outside of quotes are the lines of passages. -/
theorem exists_reads (hp : p.reading.isOutside) (start : Nat) (ls : List Bytes)
    (h : Outermost (itemsFrom p (placeLines start ls))) :
    ∃ ps, Reads p ps ∧ ps.flatMap Passage.lines = ls := by
  -- A fence takes more than one line, so the induction is on the number of lines.
  induction hn : ls.length using Nat.strongRecOn generalizing p start ls with
  | ind n ih =>
    subst hn
    cases ls with
    | nil => exact ⟨[], .nil, rfl⟩
    | cons t ts =>
      rcases step_cases hp t with ⟨o, ho⟩ | ⟨headings, next, hs⟩ | hnested
      · obtain ⟨f, rest, hlines, hopens, hread, hends⟩ := exists_fence ho ts
        cases hf : f.foot with
        | none =>
          refine ⟨[.fence f], .fence hopens hread (fun _ => rfl) .nil, ?_⟩
          rw [List.flatMap_singleton, Passage.lines, hlines, hends hf, List.append_nil]
        | some l =>
          have hlt : rest.length < (t :: ts).length := by
            rw [hlines, List.length_append, Fenced.lines, List.length_cons]
            omega
          rw [hlines, itemsFrom_fence hopens hread hf] at h
          obtain ⟨ps, hps, hrest⟩ := ih _ hlt rfl _ rest
            (fun g hg => h g (List.mem_cons_of_mem _ hg)) rfl
          refine ⟨.fence f :: ps, .fence hopens hread (by simp [hf]) hps, ?_⟩
          rw [List.flatMap_cons, Passage.lines, hrest, hlines]
      · rw [placeLines, itemsFrom_cons, hs.2] at h
        obtain ⟨ps, hps, hl⟩ := ih _ (Nat.lt_succ_self _) hs.1 _ ts
          (fun f hf => h f (List.mem_append_right _ hf)) rfl
        exact ⟨.prose t headings :: ps, .prose hs hps, by simp [Passage.lines, hl]⟩
      · obtain ⟨o, start', ho⟩ := hnested start
        rw [placeLines, itemsFrom_cons, ho, List.nil_append] at h
        exact absurd h (not_outermost_nested o start' [] _)

section Laid

variable {o : Opening}

theorem length_trimRight_le (t : Bytes) : (Text.trimRight isBlank t).length ≤ t.length := by
  rw [Text.trimRight, List.length_reverse]
  have hle := (List.dropWhile_sublist isBlank (l := t.reverse)).length_le
  rwa [List.length_reverse] at hle

private theorem trimRight_line (t : Bytes) :
    Text.trimRight isBlank (t ++ [Text.newline]) = Text.trimRight isBlank t := by
  rw [Text.trimRight, List.reverse_append, List.reverse_singleton, List.singleton_append,
    List.dropWhile_cons_of_pos (by decide)]
  rfl

theorem Fenced.ReadWith.margin (h : f.ReadWith o) (ho : o.indent ≤ 3) :
    Margin o.indent f.margin := by
  have hbody := h.body
  rw [Fenced.margin]
  cases hb : f.body with
  | nil => exact .spaces (Nat.zero_le _)
  | cons c cs =>
    rw [hb, List.forall_mem_cons] at hbody
    have hmargin := Opening.margin_codeText ho c.line
    rw [hbody.1.2] at hmargin
    exact hmargin

/-- A fence that is read from lines is a proper one. -/
theorem Fenced.ReadWith.proper (h : f.ReadWith o) (ho : o.Proper f.head.text)
    (hl : Text.Lined f.lines) : f.Proper where
  marks := by
    rw [h.head]
    exact ⟨ho.mark, ho.width⟩
  opening := by
    have hinfo := ho.info
    rw [h.infoStop]
    rw [Fenced.lines] at hl
    generalize f.head.text = t at hl hinfo
    generalize hls : f.body.map CodeText.line ++ (f.foot.map MarkLine.text).toList = ls at hl
    cases hl with
    | last filled within =>
      rw [List.append_eq_nil_iff, List.map_eq_nil_iff, Option.toList_eq_nil_iff,
        Option.map_eq_none_iff] at hls
      exact ⟨t, within, fun n hn => hinfo n hn ▸ length_trimRight_le t, .inr ⟨rfl, hls⟩⟩
    | @cons t _ within rest =>
      refine ⟨t, within, fun n hn => ?_, .inl rfl⟩
      rw [hinfo n hn, trimRight_line]
      exact length_trimRight_le t
  tagged := by
    rw [h.infoStop, h.language]
    exact ho.tagged
  within := (h.margin ho.indent).newline_notMem
  spaces htab := by
    refine ⟨List.eq_replicate_iff.mp ((h.margin ho.indent).eq_spaces htab) |>.2, ?_⟩
    rw [h.left, leftBy, if_neg (mt List.contains_iff_mem.mp htab)]
  closing := by
    intro l hl
    rw [h.head]
    exact (h.foot l hl).2

theorem Reads.laid (h : Reads p ps) (hl : Text.Lined (ps.flatMap Passage.lines)) : Laid ps := by
  induction h with
  | nil => exact .nil
  | prose stands rest ih =>
    rw [List.flatMap_cons, Text.lined_append] at hl
    exact .prose (ih hl.2.1)
  | fence opens read ends rest ih =>
    rw [List.flatMap_cons, Text.lined_append] at hl
    exact .fence (read.proper opens.1 hl.1) ends (ih hl.2.1)

end Laid

section Replaced

variable {o : Opening} {ts : List Bytes} {indent : Nat}

theorem Fenced.ReadWith.plain (h : f.ReadWith o) (ho : o.indent ≤ 3)
    (inert : ∀ t ∈ ts, ∃ u, Inert u ∧ t = u ++ [Text.newline]) :
    ∀ c ∈ f.codeOf ts, c.Plain o.indent := by
  cases ts with
  | nil => simp [Fenced.codeOf]
  | cons t ts =>
    rw [List.forall_mem_cons] at inert
    rw [Fenced.codeOf, List.forall_mem_cons]
    refine ⟨⟨h.margin ho, inert.1, by rw [h.left]⟩, fun c hc => ?_⟩
    obtain ⟨u, hu, rfl⟩ := List.mem_map.mp hc
    exact ⟨.spaces (Nat.zero_le _), inert.2 u hu, rfl⟩

/-- A fence is read as one with other code. -/
theorem Fenced.ReadWith.filled (h : f.ReadWith o) (ho : o.Proper f.head.text)
    (inert : ∀ t ∈ ts, ∃ u, Inert u ∧ t = u ++ [Text.newline]) (near : indent ≤ 3) :
    (f.filled ts indent).ReadWith o where
  head := h.head
  language := h.language
  infoStop := h.infoStop
  left := by
    cases ts with
    | nil => rfl
    | cons t ts => exact h.left
  body := by
    intro c hc
    have hplain := h.plain ho.indent inert c hc
    exact ⟨o.not_closedBy_plain ho.mark (Nat.zero_lt_of_lt ho.width) hplain,
      o.codeText_plain ho.indent hplain⟩
  foot := by
    intro l hl
    obtain ⟨m, hm, rfl⟩ := Option.map_eq_some_iff.mp hl
    obtain ⟨hclosed, hindent, hmark, hwidth⟩ := h.foot m hm
    refine ⟨?_, near, hmark, hwidth⟩
    rwa [o.closedBy_text (hmark ▸ ho.mark) (by have := ho.width; omega) hindent near]

theorem Reads.replaced (h : Reads p ps) (hr : List.Forall₂ Replaces ps qs) : Reads p qs := by
  induction h generalizing qs with
  | nil =>
    cases hr
    exact .nil
  | prose stands rest ih =>
    obtain - | ⟨hr, hrs⟩ := hr
    cases hr
    exact .prose stands (ih hrs)
  | @fence p o f ps opens read ends rest ih =>
    obtain - | @⟨_, _, _, rs, hr, hrs⟩ := hr
    have hnil (hf : f.foot = none) : rs = [] := List.forall₂_nil_left_iff.mp (ends hf ▸ hrs)
    cases hr with
    | same => exact .fence opens read hnil (ih hrs)
    | code ended inert near =>
      exact .fence opens (read.filled opens.1 inert near)
        (fun hf => hnil (Option.map_eq_none_iff.mp hf)) (ih hrs)

end Replaced

end Reads

section Lined

variable {f : Fenced} {m u : Bytes}

theorem ended_append_iff (m : Bytes) (hu : u ≠ []) : Text.Ended (m ++ u) ↔ Text.Ended u := by
  rw [Text.Ended, List.getLast?_append_of_ne_nil m hu, Text.Ended]

/-- A line is still one with spaces before it. -/
theorem lined_append_iff (hm : Text.newline ∉ m) (hu : u ≠ []) :
    Text.Lined [m ++ u] ↔ Text.Lined [u] := by
  obtain ⟨l, ls, hl⟩ := List.exists_cons_of_ne_nil (mt Text.lines_eq_nil.mp hu)
  simp only [Text.lined_cons, Text.lines_append_of_notMem hm hl, hl, true_or, true_and,
    List.cons.injEq, List.append_cancel_left_eq]

/-- Whether a closing line is the last one does not depend on its indentation. -/
theorem lined_foot {l : MarkLine} (hwidth : 0 < l.width) (indent : Nat) :
    (Text.Lined [{ l with indent }.text] ↔ Text.Lined [l.text]) ∧
      (Text.Ended { l with indent }.text ↔ Text.Ended l.text) := by
  have hne : List.replicate l.width l.mark ++ l.tail ≠ [] :=
    List.append_ne_nil_of_left_ne_nil (by simpa using Nat.ne_of_gt hwidth) _
  have hspaces (k : Nat) : Text.newline ∉ List.replicate k (byte ' ') := fun h =>
    absurd (List.eq_of_mem_replicate h) (by decide)
  simp only [MarkLine.text, lined_append_iff (hspaces _) hne, ended_append_iff _ hne, true_and]

private theorem lined_codeOf {ts : List Bytes} (hm : Text.newline ∉ f.margin)
    (inert : ∀ t ∈ ts, ∃ u, Inert u ∧ t = u ++ [Text.newline]) :
    Text.Lined ((f.codeOf ts).map CodeText.line) ∧
      ∀ l ∈ (f.codeOf ts).map CodeText.line, Text.Ended l := by
  -- Only the first line has a margin, so the others are settled first.
  have lined {ts : List Bytes} (inert : ∀ t ∈ ts, ∃ u, Inert u ∧ t = u ++ [Text.newline]) :
      Text.Lined ts ∧ ∀ l ∈ ts, Text.Ended l := by
    induction ts with
    | nil => exact ⟨.nil, by simp⟩
    | cons t ts ih =>
      rw [List.forall_mem_cons] at inert
      obtain ⟨⟨u, hu, rfl⟩, inert⟩ := inert
      obtain ⟨hlined, hended⟩ := ih inert
      exact ⟨.cons hu.within hlined, List.forall_mem_cons.mpr ⟨Text.ended_line u, hended⟩⟩
  cases ts with
  | nil => exact ⟨.nil, by simp [Fenced.codeOf]⟩
  | cons t ts =>
    rw [List.forall_mem_cons] at inert
    obtain ⟨⟨u, hu, rfl⟩, inert⟩ := inert
    obtain ⟨hlined, hended⟩ := lined inert
    have hlines : (f.codeOf ((u ++ [Text.newline]) :: ts)).map CodeText.line =
        ((f.margin ++ u) ++ [Text.newline]) :: ts := by
      rw [Fenced.codeOf, List.map_cons, List.map_map, CodeText.line, List.append_assoc]
      exact congrArg (_ :: ·) (List.map_id'' (fun _ => rfl) ts)
    rw [hlines, List.forall_mem_cons]
    exact ⟨.cons (List.not_mem_append hm hu.within) hlined, Text.ended_line _, hended⟩

/-- A fence with other code is made of lines. -/
theorem lined_filled {ts : List Bytes} {indent : Nat} (hp : f.Proper)
    (ended : Text.Ended f.head.text) (inert : ∀ t ∈ ts, ∃ u, Inert u ∧ t = u ++ [Text.newline])
    (h : Text.Lined f.lines) : Text.Lined (f.filled ts indent).lines ∧
      ((∀ l ∈ f.lines, Text.Ended l) → ∀ l ∈ (f.filled ts indent).lines, Text.Ended l) := by
  obtain ⟨hbody, hends⟩ := lined_codeOf hp.within inert
  rw [Fenced.lines, Text.lined_cons, Text.lined_append] at h
  obtain ⟨hhead, -, -, hfoot, -⟩ := h
  rw [Fenced.lines, Fenced.lines, Fenced.filled, Text.lined_cons, Text.lined_append]
  simp only [List.forall_mem_cons, List.forall_mem_append]
  cases hf : f.foot with
  | none =>
    exact ⟨⟨hhead, .inr ended, hbody, .nil, .inl rfl⟩, fun _ => ⟨ended, hends, by simp⟩⟩
  | some l =>
    have hwidth : 0 < l.width := by
      have := hp.marks.2
      have := (hp.closing l hf).2.2
      omega
    obtain ⟨hsame, hsame'⟩ := lined_foot hwidth indent
    rw [hf] at hfoot
    refine ⟨⟨hhead, .inr ended, hbody, hsame.mpr hfoot, .inr hends⟩, fun h => ⟨ended, hends, ?_⟩⟩
    simpa [hsame'] using h.2.2

theorem flatMap_lines_eq_nil {ps : List Passage} : ps.flatMap Passage.lines = [] ↔ ps = [] := by
  cases ps with
  | nil => simp
  | cons p ps => cases p <;> simp [Passage.lines, Fenced.lines]

theorem Laid.lined_replaced {ps qs : List Passage} (hp : Laid ps)
    (h : Text.Lined (ps.flatMap Passage.lines)) (hr : List.Forall₂ Replaces ps qs) :
    Text.Lined (qs.flatMap Passage.lines) := by
  induction hr with
  | nil => exact .nil
  | @cons p q ps qs hr hrs ih =>
    rw [List.flatMap_cons, Text.lined_append, flatMap_lines_eq_nil] at h ⊢
    obtain ⟨hfirst, hrest, hlast⟩ := h
    have hrest' : Text.Lined (qs.flatMap Passage.lines) := by
      cases hp with
      | prose rest => exact ih rest hrest
      | fence proper ends rest => exact ih rest hrest
    have hnil : ps = [] → qs = [] := fun h => List.forall₂_nil_left_iff.mp (h ▸ hrs)
    cases hr with
    | same => exact ⟨hfirst, hrest', hlast.imp_left hnil⟩
    | code ended inert near =>
      obtain - | - | ⟨proper, -, -⟩ := hp
      obtain ⟨hlined, hended⟩ := lined_filled proper ended inert hfirst
      exact ⟨hlined, hrest', hlast.imp hnil hended⟩

end Lined

/-- The reader does with documents what a library is relied on to do. -/
theorem commonMark_read : CommonMark read := by
  intro doc hout
  obtain ⟨ps, hps, hlines⟩ := exists_reads rfl 0 (Text.lines doc) hout
  have hlined : Text.Lined (ps.flatMap Passage.lines) := hlines ▸ Text.lined_lines doc
  refine ⟨ps, ?_, hps.laid hlined, fun qs hqs => ?_⟩
  · rw [← flatten_flatMap_lines, hlines, Text.flatten_lines]
  · have hlined' := (hps.laid hlined).lined_replaced hlined hqs
    rw [read, linesOf, ← flatten_flatMap_lines, hlined'.lines_flatten]
    exact (hps.replaced hqs).items_eq rfl 0

end StackC.Markdown
