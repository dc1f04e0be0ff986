import StackC.Proofs.Compile.Decoding
import StackC.Proofs.Corpus.Splicing
import StackC.Proofs.Markdown.Code
import StackC.Proofs.Token.Listing

/-! Bringing a document up to date, passage by passage. -/
namespace StackC

open Markdown

theorem Token.Legible.inert {t : Token} (h : t.Legible) : Inert t.text := by
  have hd : ∀ k ∈ lexemeKinds, k.text.head?.any fun b => !isPad b && !isMark b := by decide
  refine ⟨h.newline_notMem, ?_⟩
  rw [h.text_eq]
  have hk := hd t.kind h.kind
  cases hkind : t.kind.text with
  | nil => simp [hkind] at hk
  | cons b u => simpa [hkind] using hk

theorem Asm.Instr.Spellable.inert {i : Instr} (h : i.Spellable) : Inert i.text := by
  refine ⟨newline_notMem_text h, ?_⟩
  have op {op arg : Bytes} (hop : op.head?.any fun b => !isPad b && !isMark b) :
      ({ op, arg } : Line).text.head?.any fun b => !isPad b && !isMark b := by
    rw [Line.text_op]
    split
    · exact hop
    · cases op with
      | nil => cases hop
      | cons b op => exact hop
  cases i with
  | label l =>
    rw [text, line, Line.text, List.isEmpty_eq_false_iff.mpr (h l rfl).1]
    rfl
  | _ => exact op (by decide)

namespace Corpus

private theorem listed_of_scan {src : Bytes} {toks : List Token} (h : Token.scan src = .ok toks) :
    Listed (Token.listing toks) := by
  have hl := Listed.ofLines
    (List.forall_mem_map.mpr fun t ht => (Token.legible_of_scan h t ht).inert)
  rw [List.flatMap_map] at hl
  exact hl

theorem compile_asm_eq_ok {src out : Bytes} (h : (compile .asm src).result = .ok out) :
    ∃ code, (sessionStep {} src).code = .ok code ∧ out = Asm.Instr.listing code := by
  cases hsrc : Token.scan src with
  | error e => simp [compile, hsrc] at h
  | ok toks =>
    cases hp : Grammar.parse toks {} with
    | error e => simp [compile, hsrc, hp] at h
    | ok p =>
      obtain ⟨d, -, -, hasm⟩ := compile_of_parse hsrc hp
      rw [hasm] at h
      obtain ⟨code, hc, rfl⟩ := Outcome.map_eq_ok.mp h
      exact ⟨code, by simp [sessionStep, hsrc, hp, hc], rfl⟩

/-- The text of the code or of the tokens of a program. -/
theorem listed_of_compile {mode : Mode} {src out : Bytes} (hm : mode ≠ .ast)
    (h : (compile mode src).result = .ok out) : Listed out := by
  cases mode with
  | ast => exact absurd rfl hm
  | tokens =>
    cases hsrc : Token.scan src with
    | error e => simp [compile, hsrc] at h
    | ok toks =>
      simp only [compile, hsrc, if_true, Except.ok.injEq] at h
      exact h ▸ listed_of_scan hsrc
  | asm =>
    obtain ⟨code, hc, rfl⟩ := compile_asm_eq_ok h
    rw [Asm.Instr.listing_eq_lines]
    exact .ofLines (List.forall_mem_map.mpr fun i hi => (spellable_of_sessionStep hc i hi).inert)

/-- There is no code without a line. -/
theorem compile_asm_ne_nil {src : Bytes} : (compile .asm src).result ≠ .ok [] := by
  intro h
  obtain ⟨code, hc, hnil⟩ := compile_asm_eq_ok h
  obtain ⟨toks, p, hsrc, hp, hprog⟩ := sessionStep_eq_ok hc
  have emits := Lowering.emits_of_program (Grammar.proper_of_parse hsrc hp) hprog
  rw [Asm.Instr.listing_eq_lines] at hnil
  cases emits <;> simp at hnil

/-- The code of a fence without the newlines at its end. -/
def contentOf (f : Fenced) : Bytes := Text.trimNewlines (f.body.flatMap CodeText.text)

/-- The last program since the last heading behind a fence, given that before it. -/
def programAfter (input : Option Bytes) (f : Fenced) : Option Bytes :=
  if f.language == programLanguage then some (contentOf f) else input

/-- The last program since the last heading behind some headings. -/
def programBehind (input : Option Bytes) (headings : List Bytes) : Option Bytes :=
  if headings.isEmpty then input else none

def newCode? (input : Option Bytes) (f : Fenced) : Option Bytes := do
  let mode ← goldenMode? f.language
  (compile mode (← input)).result.toOption

def renewFence (input : Option Bytes) (f : Fenced) : Fenced := (newCode? input f).elim f f.withCode

def renew (input : Option Bytes) : List Passage → List Passage
  | [] => []
  | .prose t headings :: ps => .prose t headings :: renew (programBehind input headings) ps
  | .fence f :: ps => .fence (renewFence input f) :: renew (programAfter input f) ps

/-- There is a place for this text in the fence, and the fence ends where it did with the text. -/
structure Fits (f : Fenced) (out : Bytes) : Prop where
  room : f.body ≠ [] ∨ f.foot ≠ none
  stays : out = [] → f.StaysWithoutCode

/-- Every fence for the output of a program has a program that compiles, and a place for its
output. -/
inductive Ready : Option Bytes → List Passage → Prop
  | nil {input : Option Bytes} : Ready input []
  | prose {input : Option Bytes} {t : Bytes} {headings : List Bytes} {ps : List Passage}
      (rest : Ready (programBehind input headings) ps) : Ready input (.prose t headings :: ps)
  | kept {input : Option Bytes} {f : Fenced} {ps : List Passage}
      (mode : goldenMode? f.language = none) (rest : Ready (programAfter input f) ps) :
      Ready input (.fence f :: ps)
  | golden {i : Bytes} {f : Fenced} {ps : List Passage} {m : Mode} {out : Bytes}
      (mode : goldenMode? f.language = some m) (output : (compile m i).result = .ok out)
      (fits : Fits f out) (rest : Ready (some i) ps) : Ready (some i) (.fence f :: ps)

section Renewal

variable {input : Option Bytes} {doc : Bytes} {ps : List Passage} {f : Fenced} {mode : Mode}
  {i out : Bytes}

theorem content_placed_eq (f : Fenced) (start : Nat) : (f.placed start).content = contentOf f := by
  rw [FencedCode.content, content_placed, contentOf]

private theorem programStep_placed (input : Option Bytes) (f : Fenced) (start : Nat) :
    programStep input (.fence (f.placed start)) = programAfter input f := by
  rw [programStep, content_placed_eq]
  rfl

/-- A fence for the output of a program is no program itself. -/
theorem programAfter_golden (h : goldenMode? f.language = some mode) :
    programAfter input f = input := by
  rw [programAfter, if_neg]
  intro hp
  rw [beq_iff_eq.mp hp, goldenMode?_program] at h
  cases h

theorem renewFence_kept (h : goldenMode? f.language = none) : renewFence input f = f := by
  simp [renewFence, newCode?, h]

theorem renewFence_golden (h : goldenMode? f.language = some mode)
    (ho : (compile mode i).result = .ok out) : renewFence (some i) f = f.withCode out := by
  simp [renewFence, newCode?, h, ho, Except.toOption]

theorem goldensFrom_prose (input : Option Bytes) (headings : List Bytes) (items : List Item) :
    goldensFrom input (headings.map .heading ++ items) =
      goldensFrom (programBehind input headings) items := by
  cases headings with
  | nil => rfl
  | cons h headings =>
    have hnone : ∀ hs : List Bytes, goldensFrom none (hs.map .heading ++ items) =
        goldensFrom none items := by
      intro hs
      induction hs with
      | nil => rfl
      | cons h hs ih => exact ih
    exact hnone headings

theorem goldensFrom_fence (input : Option Bytes) (f : Fenced) (start : Nat) (items : List Item) :
    goldensFrom input (.fence (f.placed start) :: items) =
      ((goldenMode? f.language).map fun mode => ⟨f.placed start, mode, input⟩).toList ++
        goldensFrom (programAfter input f) items := by
  rw [goldensFrom, programStep_placed]
  rfl

/-- The edits do to the text what is done to the passages. The text before them goes from `pos` to
where they begin. -/
def SplicesFrom (doc : Bytes) (input : Option Bytes) (ps : List Passage) (pos : Nat)
    (front : Bytes) : Prop :=
  ∃ outs, List.Forall₂ (Golden.Renewed doc)
      (goldensFrom input (itemsOf (pos + front.length) ps)) outs ∧
    spliced doc pos (editsOf doc (goldensFrom input (itemsOf (pos + front.length) ps)) outs) =
      front ++ textOf (renew input ps)

private theorem stands_at {pos : Nat} {front rest : Bytes} (hf : f.Proper)
    (hends : f.foot = none → rest = []) (hpos : pos ≤ doc.length)
    (hdoc : doc.drop pos = front ++ (f.text ++ rest)) : f.Stands doc (pos + front.length) where
  proper := hf
  split := by
    refine ⟨doc.take pos ++ front, rest, ?_, ?_, hends⟩
    · rw [List.append_assoc, ← hdoc, List.take_append_drop]
    · rw [List.length_append, List.length_take_of_le hpos]

/-- The text before the code of a fence, and the text behind it. -/
theorem cut_around {pos start stop : Nat} {front rest : Bytes}
    (hdoc : doc.drop pos = front ++ (f.text ++ rest))
    (hstart : start = pos + front.length + f.head.text.length + f.margin.length)
    (hstop : stop = pos + front.length + f.head.text.length + f.code.length) :
    (doc.take start).drop pos = front ++ (f.head.text ++ f.margin) ∧
      doc.drop stop = f.footText ++ rest := by
  obtain ⟨code, hcode⟩ := f.exists_code
  constructor
  · have hsplit : front ++ (f.text ++ rest) =
        (front ++ (f.head.text ++ f.margin)) ++ (code ++ (f.footText ++ rest)) := by
      rw [Fenced.text, hcode]
      simp only [List.append_assoc]
    rw [List.drop_take, hdoc, hsplit]
    apply List.take_left'
    simp only [List.length_append]
    omega
  · have hsplit : front ++ (f.text ++ rest) =
        (front ++ (f.head.text ++ f.code)) ++ (f.footText ++ rest) := by
      rw [Fenced.text]
      simp only [List.append_assoc]
    have hadd : stop = pos + (stop - pos) := by omega
    rw [hadd, ← List.drop_drop, hdoc, hsplit]
    apply List.drop_left'
    simp only [List.length_append]
    omega

/-- One fence in the text around it gets its new code, and what follows the code is left to the
rest. -/
theorem SplicesFrom.golden {pos : Nat} {front : Bytes} (hf : f.Proper)
    (hends : f.foot = none → ps = []) (hm : goldenMode? f.language = some mode)
    (ho : (compile mode i).result = .ok out) (hfits : Fits f out) (hpos : pos ≤ doc.length)
    (hdoc : doc.drop pos = front ++ (f.text ++ textOf ps))
    (hrest : ∀ pos', pos' ≤ doc.length → doc.drop pos' = f.footText ++ textOf ps →
      SplicesFrom doc (some i) ps pos' f.footText) :
    SplicesFrom doc (some i) (.fence f :: ps) pos front := by
  have hstands : f.Stands doc (pos + front.length) :=
    stands_at hf (fun hc => by rw [hends hc]; rfl) hpos hdoc
  have hinfo : f.infoStop ≠ none := by
    intro hnone
    rw [hf.tagged hnone] at hm
    cases hm
  obtain ⟨hstart, hstop⟩ := hstands.range hinfo hfits.room
  have hroom := (hstands.hasRoomIn_iff hinfo).mpr hfits.room
  have hlength : f.text.length = f.head.text.length + (f.code.length + f.footText.length) := by
    rw [Fenced.text, List.length_append, List.length_append]
  generalize hs : (f.placed (pos + front.length)).startIn doc = start at hstart
  generalize he : (f.placed (pos + front.length)).stopIn doc = stop at hstop
  have hstopLe : stop ≤ doc.length := by
    have hlen := congrArg List.length hdoc
    rw [List.length_drop, List.length_append, List.length_append] at hlen
    omega
  obtain ⟨hbefore, hafter⟩ := cut_around hdoc hstart hstop
  obtain ⟨outs, houts, htext⟩ := hrest stop hstopLe hafter
  have hnext : pos + front.length + f.text.length = stop + f.footText.length := by omega
  refine ⟨out :: outs, ?_, ?_⟩
  · rw [itemsOf, goldensFrom_fence, hm, programAfter_golden hm, hnext]
    exact .cons ⟨⟨i, rfl, ho⟩, hroom⟩ houts
  · rw [itemsOf, goldensFrom_fence, hm, programAfter_golden hm, hnext]
    change spliced doc pos (⟨_, _, out⟩ :: editsOf doc
      (goldensFrom (some i) (itemsOf (stop + f.footText.length) ps)) outs) = _
    rw [hs, he, spliced, htext, hbefore, renew, renewFence_golden hm ho, programAfter_golden hm,
      textOf_cons, Passage.text, Fenced.text_withCode hf hfits.stays]
    simp only [List.append_assoc]

/-- A passage that is kept goes to the text before the rest. -/
theorem SplicesFrom.kept {p : Passage} {input' : Option Bytes} {pos : Nat} {front : Bytes}
    (hp : renew input (p :: ps) = p :: renew input' ps)
    (hgoldens : goldensFrom input (itemsOf (pos + front.length) (p :: ps)) =
      goldensFrom input' (itemsOf (pos + (front ++ p.text).length) ps))
    (h : SplicesFrom doc input' ps pos (front ++ p.text)) :
    SplicesFrom doc input (p :: ps) pos front := by
  rw [SplicesFrom, hp, hgoldens, textOf_cons, ← List.append_assoc]
  exact h

private theorem splicesFrom (hr : Ready input ps) (hl : Laid ps) {pos : Nat} {front : Bytes}
    (hpos : pos ≤ doc.length) (hdoc : doc.drop pos = front ++ textOf ps) :
    SplicesFrom doc input ps pos front := by
  induction hr generalizing pos front with
  | nil => exact ⟨[], .nil, by simpa [editsOf, goldensFrom, spliced, renew, itemsOf] using hdoc⟩
  | @prose input t headings ps rest ih =>
    cases hl with
    | prose hl =>
      refine .kept rfl ?_ (ih hl hpos (by simpa [Passage.text] using hdoc))
      rw [itemsOf, goldensFrom_prose, List.length_append, Nat.add_assoc]
      rfl
  | @kept input f ps mode rest ih =>
    cases hl with
    | fence proper ends hl =>
      refine .kept (by rw [renew, renewFence_kept mode]) ?_
        (ih hl hpos (by simpa [Passage.text] using hdoc))
      rw [itemsOf, goldensFrom_fence, mode, List.length_append, Nat.add_assoc]
      rfl
  | golden mode output fits rest ih =>
    cases hl with
    | fence proper ends hl =>
      rw [textOf_cons] at hdoc
      exact .golden proper ends mode output fits hpos hdoc fun pos' hpos' hdoc' =>
        ih hl hpos' hdoc'

/-- A document that is read as passages is brought up to date as they are. -/
theorem updateBy_of_ready {reader : Reader} (hr : Ready none ps) (hl : Laid ps)
    (hread : reader (textOf ps) = itemsOf 0 ps) :
    updateBy reader (textOf ps) = .ok (textOf (renew none ps)) := by
  have hin : InOrder (textOf ps) (reader (textOf ps)) := hread ▸ inOrder_of_laid hl
  obtain ⟨outs, houts, htext⟩ : SplicesFrom (textOf ps) none ps 0 [] :=
    splicesFrom hr hl (Nat.zero_le _) rfl
  refine (updateBy_eq_ok hin).mpr ⟨outs, ?_⟩
  rw [hread, goldens_eq]
  exact ⟨houts, htext.symm⟩

theorem Fits.withCode (h : Fits f out) : Fits (f.withCode out) out where
  room := by
    by_cases hout : out = []
    · exact .inr (mt Fenced.foot_withCode_eq_none.mp (h.stays hout).closed)
    · exact .inl (mt Fenced.body_withCode_eq_nil.mp hout)
  stays hout := by
    subst hout
    exact (h.stays rfl).withCode

/-- Passages that are brought up to date are laid out, stay ready, and may stand where they did. -/
theorem Ready.renew (hr : Ready input ps) (hl : Laid ps) :
    Ready input (renew input ps) ∧ Laid (renew input ps) ∧
      List.Forall₂ Replaces ps (Corpus.renew input ps) := by
  induction hr with
  | nil => exact ⟨.nil, .nil, .nil⟩
  | prose rest ih =>
    cases hl with
    | prose hl =>
      obtain ⟨hready, hlaid, hreplaces⟩ := ih hl
      exact ⟨.prose hready, .prose hlaid, .cons (.same _) hreplaces⟩
  | @kept input f ps mode rest ih =>
    cases hl with
    | fence proper ends hl =>
      obtain ⟨hready, hlaid, hreplaces⟩ := ih hl
      rw [Corpus.renew, renewFence_kept mode]
      refine ⟨.kept mode hready, .fence proper (fun hc => ?_) hlaid, .cons (.same _) hreplaces⟩
      rw [ends hc, Corpus.renew]
  | @golden i f ps m out mode output fits rest ih =>
    cases hl with
    | fence proper ends hl =>
      obtain ⟨hready, hlaid, hreplaces⟩ := ih hl
      have hlisted := listed_of_compile (language_of_goldenMode? mode).1 output
      rw [Corpus.renew, renewFence_golden mode output, programAfter_golden mode]
      have hproper := proper.withCode fits.room fits.stays
      have hreplace := proper.replaces hlisted fits.room fits.stays
      have hfits : Fits (f.withCode out) out := fits.withCode
      refine ⟨.golden mode output hfits hready, .fence hproper (fun hc => ?_) hlaid,
        .cons hreplace hreplaces⟩
      rw [ends (Fenced.foot_withCode_eq_none.mp hc), Corpus.renew]

end Renewal

end Corpus

end StackC
