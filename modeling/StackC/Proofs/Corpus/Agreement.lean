import Mathlib.Data.List.Forall2
import StackC.Proofs.Corpus.Settled

/-! The test cases of a document that has been brought up to date. -/
namespace StackC.Corpus

open Markdown

def Expectation.mode? : Expectation → Option Mode
  | asm => some .asm
  | tokens => some .tokens
  | _ => none

/-- What is expected is the output of the program. -/
def Assertion.Holds (input : Bytes) (mode : Mode) (a : Assertion) : Prop :=
  ∃ out, (compile mode input).result = .ok out ∧ a.content = Text.trimNewlines out

/-- The second assertion stands where the first did. It holds if it is about an output, and is as it
was if it is not. -/
structure Assertion.Renewed (input : Bytes) (a b : Assertion) : Prop where
  expectation : b.expectation = a.expectation
  kept : a.expectation.mode? = none → b.content = a.content ∧ b.pattern = a.pattern
  holds : ∀ mode, a.expectation.mode? = some mode → b.Holds input mode

structure TestCase.Renewed (c d : TestCase) : Prop where
  name : d.name = c.name
  input : d.input = c.input
  assertions : List.Forall₂ (Assertion.Renewed c.input) c.assertions d.assertions

/-- An unfinished case and the one in its place. There are no assertions before the program. -/
structure Draft.Renewed (d e : Draft) : Prop where
  name : e.name = d.name
  input : e.input = d.input
  fresh : d.input = none → d.assertions = [] ∧ e.assertions = []
  assertions : ∀ i, d.input = some i →
    List.Forall₂ (Assertion.Renewed i) d.assertions e.assertions

/-- What a fence adds to the section that is being read. -/
inductive Adds (f : Fence) : Option Draft → Option Draft → Prop
  | prose {current : Option Draft} (language : f.language = []) : Adds f current current
  | program {d : Draft} (language : f.language = programLanguage) (first : d.input = none) :
      Adds f (some d) (some { d with input := some f.content })
  | assertion {d : Draft} {e : Expectation} {i : Bytes} {pattern : Option SExpr.Node}
      (language : f.language = e.language) (given : d.input = some i)
      (read : readPattern e f.lineNumber d.name f.content = .ok pattern) :
      Adds f (some d) (some { d with
        assertions := d.assertions ++ [⟨e, f.content, pattern, f.lineNumber⟩] })

section Adds

variable {f : Fence} {current next : Option Draft}

theorem ofLanguage?_program : Role.ofLanguage? programLanguage = some .program := by
  decide

theorem ofLanguage?_expectation (e : Expectation) :
    Role.ofLanguage? e.language = some (.expectation e) := by
  cases e <;> decide

theorem ofLanguage?_eq_some {language : Bytes} {role : Role}
    (h : Role.ofLanguage? language = some role) :
    (language = programLanguage ∧ role = .program) ∨
      ∃ e : Expectation, language = e.language ∧ role = .expectation e := by
  rw [Role.ofLanguage?] at h
  split at h
  · next hp =>
    cases h
    exact .inl ⟨beq_iff_eq.mp hp, rfl⟩
  · obtain ⟨e, he, rfl⟩ := Option.map_eq_some_iff.mp h
    have htext := List.find?_some he
    exact .inr ⟨e, (beq_iff_eq.mp htext).symm, rfl⟩

theorem addFence_eq_ok : addFence current f = .ok next ↔ Adds f current next := by
  constructor
  · intro h
    by_cases hl : f.language.isEmpty
    · simp only [addFence, hl, if_true] at h
      cases h
      exact .prose (List.isEmpty_iff.mp hl)
    cases hr : Role.ofLanguage? f.language with
    | none => simp [addFence, hl, hr] at h
    | some role =>
      cases current with
      | none => simp [addFence, hl, hr] at h
      | some d =>
        rcases ofLanguage?_eq_some hr with ⟨hlang, rfl⟩ | ⟨e, hlang, rfl⟩
        · cases hd : d.input with
          | none =>
            simp [addFence, hl, hr, hd] at h
            subst h
            exact .program hlang hd
          | some i => simp [addFence, hl, hr, hd] at h
        · cases hd : d.input with
          | none => simp [addFence, hl, hr, hd] at h
          | some i =>
            simp only [addFence, hl, hr, hd] at h
            obtain ⟨pattern, hread, h⟩ := Outcome.bind_eq_ok.mp h
            cases h
            have hadds := Adds.assertion (f := f) hlang hd hread
            rwa [hd] at hadds
  · intro h
    have filled : ∀ e : Expectation, e.language.isEmpty = false := by
      intro e
      cases e <;> decide
    cases h with
    | prose language => simp [addFence, language]
    | program language first =>
      have hp : programLanguage.isEmpty = false := by decide
      simp [addFence, language, hp, ofLanguage?_program, first]
    | @assertion d e i pattern language given read =>
      simp [addFence, language, filled e, ofLanguage?_expectation, given, read]

end Adds

section Renewed

variable {doc new : Bytes} {input : Option Bytes} {f : Fenced} {ps : List Passage}
  {current current' next : Option Draft} {start start' : Nat}

/-- A fence of a document, as the tools see it there. -/
def seenAt (doc : Bytes) (start : Nat) (f : Fenced) : Fence := .ofCode doc (f.placed start)

theorem content_seenAt (doc : Bytes) (start : Nat) (f : Fenced) :
    (seenAt doc start f).content = contentOf f := content_placed_eq f start

theorem goldenMode?_expectation {e : Expectation} (h : f.language = e.language) :
    goldenMode? f.language = e.mode? := by
  rw [h]
  cases e <;> decide

theorem readPattern_of_mode {e : Expectation} {mode : Mode} (h : e.mode? = some mode) (line : Nat)
    (name content : Bytes) : readPattern e line name content = .ok none := by
  cases e with
  | ast => cases h
  | _ => rfl

/-- The line of a pattern that is read does not matter. -/
theorem readPattern_line {e : Expectation} {line : Nat} {name content : Bytes}
    {pattern : Option SExpr.Node} (h : readPattern e line name content = .ok pattern)
    (line' : Nat) : readPattern e line' name content = .ok pattern := by
  cases e with
  | ast =>
    rw [readPattern] at h ⊢
    cases hr : SExpr.read content with
    | ok n => rwa [hr] at h
    | error e =>
      rw [hr] at h
      cases h
  | _ => exact h

/-- The program before a fence is that of the case that is being read. -/
def Known (input : Option Bytes) (current : Option Draft) : Prop :=
  ∀ i ∈ input, ∃ d, current = some d ∧ d.input = some i

theorem Draft.Renewed.addAssertion {d e : Draft} {a b : Assertion} {i : Bytes} (h : d.Renewed e)
    (hi : d.input = some i) (hab : Assertion.Renewed i a b) :
    Draft.Renewed { d with assertions := d.assertions ++ [a] }
      { e with assertions := e.assertions ++ [b] } where
  name := h.name
  input := h.input
  fresh hn := by
    rw [hi] at hn
    cases hn
  assertions j hj := by
    have hj' : d.input = some j := hj
    rw [hi] at hj'
    cases hj'
    exact List.rel_append (h.assertions i hi) (.cons hab .nil)

theorem Draft.Renewed.setProgram {d e : Draft} (h : d.Renewed e) (hn : d.input = none)
    (i : Bytes) : Draft.Renewed { d with input := some i } { e with input := some i } where
  name := h.name
  input := rfl
  fresh hi := by cases hi
  assertions _ _ := by
    obtain ⟨hd, he⟩ := h.fresh hn
    rw [hd, he]
    exact .nil

theorem Known.addAssertion {d : Draft} (h : Known input (some d)) (a : Assertion) :
    Known input (some { d with assertions := d.assertions ++ [a] }) := by
  intro i hi
  obtain ⟨d', hd', hinput⟩ := h i hi
  cases hd'
  exact ⟨_, rfl, hinput⟩

/-- An assertion that is not about an output stays as it is, on whatever line. -/
theorem Assertion.Renewed.same {i content : Bytes} {x : Expectation} (hx : x.mode? = none)
    (pattern : Option SExpr.Node) (line line' : Nat) :
    Assertion.Renewed i ⟨x, content, pattern, line⟩ ⟨x, content, pattern, line'⟩ := by
  refine ⟨rfl, fun _ => ⟨rfl, rfl⟩, fun mode hm => ?_⟩
  rw [show x.mode? = some mode from hm] at hx
  cases hx

/-- An assertion about an output is replaced by that output. -/
theorem Assertion.Renewed.golden {i out content : Bytes} {x : Expectation} {mode : Mode}
    {pattern pattern' : Option SExpr.Node} {line line' : Nat} (hx : x.mode? = some mode)
    (ho : (compile mode i).result = .ok out) :
    Assertion.Renewed i ⟨x, content, pattern, line⟩
      ⟨x, Text.trimNewlines out, pattern', line'⟩ := by
  refine ⟨rfl, fun hn => ?_, fun mode' hm => ?_⟩
  · rw [show x.mode? = none from hn] at hx
    cases hx
  · rw [show x.mode? = some mode' from hm] at hx
    cases hx
    exact ⟨out, ho, rfl⟩

/-- A fence that is kept adds to a case what it did. -/
theorem Adds.kept (h : Adds (seenAt doc start f) current next)
    (hd : Option.Rel Draft.Renewed current current') (hknown : Known input current)
    (hm : goldenMode? f.language = none) (new : Bytes) (start' : Nat) :
    ∃ next', Adds (seenAt new start' f) current' next' ∧ Option.Rel Draft.Renewed next next' ∧
      Known (programAfter input f) next := by
  cases h with
  | prose language =>
    have hlang : f.language = [] := language
    have hafter : programAfter input f = input := by
      rw [programAfter, hlang]
      rfl
    rw [hafter]
    exact ⟨current', .prose hlang, hd, hknown⟩
  | @program d language first =>
    have hlang : f.language = programLanguage := language
    have hafter : programAfter input f = some (contentOf f) := by
      simp [programAfter, hlang]
    obtain @⟨_, e, hde⟩ := hd
    refine ⟨_, .program hlang (hde.input.trans first), .some ?_, ?_⟩
    · rw [content_seenAt, content_seenAt]
      exact hde.setProgram first _
    · rw [hafter, content_seenAt]
      intro i hi
      cases hi
      exact ⟨_, rfl, rfl⟩
  | @assertion d x i pattern language given read =>
    have hlang : f.language = x.language := language
    have hafter : programAfter input f = input := by
      rw [programAfter, hlang, if_neg (by cases x <;> decide)]
    obtain @⟨_, e, hde⟩ := hd
    rw [content_seenAt, ← hde.name] at read
    have hread := readPattern_line read (seenAt new start' f).lineNumber
    rw [← content_seenAt new start' f] at hread
    rw [hafter]
    refine ⟨_, .assertion hlang (hde.input.trans given) hread, .some (hde.addAssertion given ?_),
      hknown.addAssertion _⟩
    rw [content_seenAt, content_seenAt]
    exact .same ((goldenMode?_expectation hlang).symm.trans hm) pattern _ _

/-- A fence with the output of the program of a case adds an assertion that holds. -/
theorem Adds.golden {mode : Mode} {i out : Bytes} (h : Adds (seenAt doc start f) current next)
    (hd : Option.Rel Draft.Renewed current current') (hknown : Known (some i) current)
    (hm : goldenMode? f.language = some mode) (ho : (compile mode i).result = .ok out)
    (hleft : f.left = []) (new : Bytes) (start' : Nat) :
    ∃ next', Adds (seenAt new start' (f.withCode out)) current' next' ∧
      Option.Rel Draft.Renewed next next' ∧ Known (some i) next := by
  have hlanguage := (language_of_goldenMode? hm).2
  cases h with
  | prose language =>
    have hlang : f.language = [] := language
    rw [hlang] at hm
    cases hm
  | program language =>
    have hlang : f.language = programLanguage := language
    rw [hlang, goldenMode?_program] at hm
    cases hm
  | @assertion d x j pattern language given read =>
    have hlang : f.language = x.language := language
    -- The program that the updater compiles is the one of the case.
    obtain rfl : j = i := by
      obtain ⟨d', hd', hi⟩ := hknown i rfl
      cases hd'
      exact Option.some.inj (given.symm.trans hi)
    have hx : x.mode? = some mode := (goldenMode?_expectation hlang).symm.trans hm
    obtain @⟨_, e, hde⟩ := hd
    have hread := readPattern_of_mode hx (seenAt new start' (f.withCode out)).lineNumber
      e.name (seenAt new start' (f.withCode out)).content
    have hcontent : (seenAt new start' (f.withCode out)).content = Text.trimNewlines out := by
      rw [content_seenAt, contentOf, f.content_withCode hleft]
    refine ⟨_, .assertion hlang (hde.input.trans given) hread,
      .some (hde.addAssertion given ?_), hknown.addAssertion _⟩
    rw [hcontent]
    exact .golden hx ho

theorem Draft.Renewed.finish {d e : Draft} {c : TestCase} (h : d.Renewed e)
    (hc : d.finish = .ok c) : ∃ c', e.finish = .ok c' ∧ c.Renewed c' := by
  cases hd : d.input with
  | none => simp [Draft.finish, hd] at hc
  | some i =>
    have he : e.input = some i := h.input.trans hd
    have hall := h.assertions i hd
    cases hda : d.assertions with
    | nil => simp [Draft.finish, hd, hda] at hc
    | cons a as =>
      rw [hda] at hall
      cases hea : e.assertions with
      | nil =>
        rw [hea] at hall
        cases hall
      | cons b bs =>
        rw [hea] at hall
        simp only [Draft.finish, hd, hda, Except.ok.injEq] at hc
        subst hc
        refine ⟨{ name := e.name, input := i, assertions := b :: bs }, ?_, h.name, rfl, hall⟩
        simp only [Draft.finish, he, hea]

theorem finishAll_renewed {cs : List TestCase} (h : Option.Rel Draft.Renewed current current')
    (hc : finishAll current = .ok cs) :
    ∃ cs', finishAll current' = .ok cs' ∧ List.Forall₂ TestCase.Renewed cs cs' := by
  cases h with
  | none =>
    cases hc
    exact ⟨[], rfl, .nil⟩
  | some h =>
    obtain ⟨c, hfinish, hc⟩ := Outcome.bind_eq_ok.mp hc
    cases hc
    obtain ⟨c', hfinish', hrenewed⟩ := h.finish hfinish
    refine ⟨[c'], ?_, .cons hrenewed .nil⟩
    rw [finishAll, hfinish']
    rfl

theorem mapError_eq_ok {α β γ : Type} {x : Except α γ} {g : α → β} {c : γ} :
    x.mapError g = .ok c ↔ x = .ok c := by
  cases x <;> simp [Except.mapError]

/-- The cases of some blocks become those of others, from whatever section is being read. -/
def CasesFollow (bs bs' : List Block) : Prop :=
  ∀ {current current' : Option Draft} {cs : List TestCase},
    Option.Rel Draft.Renewed current current' → casesFrom current bs = .ok cs →
      ∃ cs', casesFrom current' bs' = .ok cs' ∧ List.Forall₂ TestCase.Renewed cs cs'

/-- Headings are the same in both. -/
theorem CasesFollow.headings {bs bs' : List Block} (h : CasesFollow bs bs') (hs : List Bytes) :
    CasesFollow (hs.map .heading ++ bs) (hs.map .heading ++ bs') := by
  induction hs with
  | nil => exact h
  | cons text hs ih =>
    intro current current' cs hd hc
    simp only [List.map_cons, List.cons_append, casesFrom] at hc ⊢
    cases hmark : Text.after? caseMark text with
    | none =>
      simp only [hmark] at hc
      exact ih hd hc
    | some name =>
      simp only [hmark] at hc
      obtain ⟨done, hdone, hc⟩ := Outcome.bind_eq_ok.mp hc
      obtain ⟨others, hothers, hc⟩ := Outcome.bind_eq_ok.mp hc
      cases hc
      obtain ⟨done', hdone', hall⟩ := finishAll_renewed hd (mapError_eq_ok.mp hdone)
      have hfresh : Draft.Renewed { name } { name } :=
        ⟨rfl, rfl, fun _ => ⟨rfl, rfl⟩, fun i hi => by cases hi⟩
      obtain ⟨others', hothers', hall'⟩ := ih (.some hfresh) hothers
      refine ⟨done' ++ others', ?_, List.rel_append hall hall'⟩
      simp only [mapError_eq_ok.mpr hdone', hothers', Outcome.ok_bind, Outcome.pure_eq]

theorem casesFrom_fence {bs : List Block} {cs : List TestCase} {f : Fence} :
    casesFrom current (.fence f :: bs) = .ok cs ↔
      ∃ next, Adds f current next ∧ casesFrom next bs = .ok cs := by
  simp only [casesFrom, Outcome.bind_eq_ok, mapError_eq_ok, addFence_eq_ok]

/-- The cases of passages that are brought up to date. -/
theorem casesFrom_renew {cs : List TestCase} (hr : Ready input ps)
    (hleft : ∀ f, .fence f ∈ ps → f.left = [])
    (h : casesFrom current ((itemsOf start ps).map (Block.ofItem doc)) = .ok cs)
    (hd : Option.Rel Draft.Renewed current current') (hknown : Known input current)
    (new : Bytes) (start' : Nat) :
    ∃ cs', casesFrom current' ((itemsOf start' (renew input ps)).map (Block.ofItem new)) = .ok cs' ∧
      List.Forall₂ TestCase.Renewed cs cs' := by
  -- The new code moves all that follows it, so the induction is for any two places.
  induction hr generalizing current current' start start' cs with
  | nil =>
    obtain ⟨cs', hcs', hall⟩ := finishAll_renewed hd (mapError_eq_ok.mp h)
    exact ⟨cs', mapError_eq_ok.mpr hcs', hall⟩
  | @prose input t headings ps rest ih =>
    have hrest : ∀ f, .fence f ∈ ps → f.left = [] := fun f hf =>
      hleft f (List.mem_cons_of_mem _ hf)
    have hblocks (doc : Bytes) (items : List Item) :
        (headings.map Item.heading ++ items).map (Block.ofItem doc) =
          headings.map Block.heading ++ items.map (Block.ofItem doc) := by
      rw [List.map_append, List.map_map]
      rfl
    rw [itemsOf, hblocks] at h
    rw [renew, itemsOf, hblocks]
    cases headings with
    | nil => exact ih hrest h hd hknown _
    | cons text headings =>
      refine CasesFollow.headings (fun hd h => ih hrest h hd ?_ _) (text :: headings) hd h
      intro i hi
      cases hi
  | @kept input f ps mode rest ih =>
    obtain ⟨next, hadds, h⟩ := casesFrom_fence.mp h
    obtain ⟨next', hadds', hnext, hknown'⟩ := Adds.kept hadds hd hknown mode new start'
    obtain ⟨cs', hcs', hall⟩ := ih (fun g hg => hleft g (List.mem_cons_of_mem _ hg)) h hnext hknown'
      (start' + f.text.length)
    rw [renew, renewFence_kept mode]
    exact ⟨cs', casesFrom_fence.mpr ⟨next', hadds', hcs'⟩, hall⟩
  | @golden i f ps m out mode output fits rest ih =>
    obtain ⟨next, hadds, h⟩ := casesFrom_fence.mp h
    obtain ⟨next', hadds', hnext, hknown'⟩ :=
      Adds.golden hadds hd hknown mode output (hleft f List.mem_cons_self) new start'
    obtain ⟨cs', hcs', hall⟩ := ih (fun g hg => hleft g (List.mem_cons_of_mem _ hg)) h hnext hknown'
      (start' + (f.withCode out).text.length)
    rw [renew, renewFence_golden mode output, programAfter_golden mode]
    exact ⟨cs', casesFrom_fence.mpr ⟨next', hadds', hcs'⟩, hall⟩

private theorem beforeEnd_eq_nil {src : Bytes} (h : (compile .tokens src).result = .ok []) :
    ∃ toks, Token.scan src = .ok toks ∧ Token.beforeEnd toks = [] := by
  cases hsrc : Token.scan src with
  | error e => simp [compile, hsrc] at h
  | ok toks =>
    refine ⟨toks, rfl, ?_⟩
    simp only [compile, hsrc, if_true, Except.ok.injEq, Token.listing] at h
    cases hb : Token.beforeEnd toks with
    | nil => rfl
    | cons t ts => simp [hb] at h

end Renewed

/-- The program of a fence is the code of another fence. -/
theorem exists_program {input : Option Bytes} {items : List Item} {g : Golden} {p : Bytes}
    (hg : g ∈ goldensFrom input items) (hp : g.program = some p) :
    input = some p ∨ ∃ f, .fence f ∈ items ∧ f.language = programLanguage ∧ f.content = p := by
  induction items generalizing input with
  | nil => cases hg
  | cons i items ih =>
    cases i with
    | heading text =>
      rcases ih hg with hi | ⟨f, hf, hprogram⟩
      · cases hi
      · exact .inr ⟨f, List.mem_cons_of_mem _ hf, hprogram⟩
    | fence e =>
      rcases List.mem_append.mp hg with hfirst | hrest
      · rw [Option.mem_toList, Option.map_eq_some_iff] at hfirst
        obtain ⟨mode, -, rfl⟩ := hfirst
        exact .inl hp
      rcases ih hrest with hi | ⟨f, hf, hprogram⟩
      · rw [programStep] at hi
        split at hi
        · next hlang =>
          cases hi
          exact .inr ⟨e, List.mem_cons_self, beq_iff_eq.mp hlang, rfl⟩
        · exact .inl hi
      · exact .inr ⟨f, List.mem_cons_of_mem _ hf, hprogram⟩

/-- If the fences of a document stand outside of other blocks, no line of code loses a tab and every
program has a token, the document has the same cases after it has been brought up to date: they have
the same names, programs and assertions in the same order, the assertions about the output of a mode
hold, and all others are as they were. -/
theorem testCases_update {reader : Reader} (hlib : CommonMark reader) {doc new : Bytes}
    {cs : List TestCase} (hout : Outermost (reader doc))
    (htabs : ∀ f, .fence f ∈ reader doc → ∀ l ∈ f.lines,
      byte '\t' ∉ Text.beforeOnLine doc l.start)
    (htokens : ∀ f, .fence f ∈ reader doc → f.language = programLanguage →
      ∀ toks, Token.scan f.content = .ok toks → Token.beforeEnd toks ≠ [])
    (hc : testCasesBy reader doc = .ok cs) (hu : updateBy reader doc = .ok new) :
    ∃ cs', testCasesBy reader new = .ok cs' ∧ List.Forall₂ TestCase.Renewed cs cs' := by
  have hs : Settled doc (goldens (reader doc)) := by
    rintro g hg ⟨-, p, hp, hempty⟩
    obtain ⟨toks, hscan, hnone⟩ := beforeEnd_eq_nil hempty
    rcases exists_program (goldens_eq _ ▸ hg) hp with hi | ⟨f, hf, hlang, rfl⟩
    · cases hi
    · exact absurd hnone (htokens f hf hlang toks hscan)
  obtain ⟨ps, rfl, hread, hlaid, hready, -, hread'⟩ := exists_renew hlib hout hs hu
  have hleft : ∀ f, .fence f ∈ ps → f.left = [] := by
    intro f hf
    obtain ⟨start, hat, hitem⟩ := exists_fencesAt hf 0
    have hstands := hlaid.stands _ hat
    exact (hstands.proper.spaces (hstands.tab_notMem (htabs _ (hread ▸ hitem)))).2
  rw [testCasesBy, blocksBy, hread] at hc
  rw [testCasesBy, blocksBy, hread']
  exact casesFrom_renew hready hleft hc .none (fun i hi => by cases hi) new 0

/-- A case whose tokens stand in an indented fence, and with an error that is expected behind
another heading. -/
def indentedCase (tokens : String) : Bytes :=
  ascii "# Test: A\n```c-program\nx<1\n```\n  ```tokens\n" ++ ascii tokens ++
    ascii "   ```\n> # B\n\nC\n---\n~~~compile-error\ny\n"

theorem testCases_update_indentedCase :
    let new := indentedCase "  IDENT \"x\"\nPUNCT \"<\"\nNUM \"1\"\n"
    ∃ cs cs', testCases (indentedCase "  y\n") = .ok cs ∧ cs.map TestCase.name = [ascii "A"] ∧
      update (indentedCase "  y\n") = .ok new ∧ testCases new = .ok cs' ∧
      List.Forall₂ TestCase.Renewed cs cs' := by
  intro new
  have hu : update (indentedCase "  y\n") = .ok new := by decide +kernel
  have hnames : (testCases (indentedCase "  y\n")).map (List.map TestCase.name) =
      .ok [ascii "A"] := by decide +kernel
  have hout : Outermost (read (indentedCase "  y\n")) := by decide +kernel
  have htabs : ∀ f, .fence f ∈ read (indentedCase "  y\n") → ∀ l ∈ f.lines,
      byte '\t' ∉ Text.beforeOnLine (indentedCase "  y\n") l.start := by
    simp only [← mem_fences]
    decide +kernel
  have htokens : ∀ f, .fence f ∈ read (indentedCase "  y\n") → f.language = programLanguage →
      ∀ toks, Token.scan f.content = .ok toks → Token.beforeEnd toks ≠ [] := by
    have hcontent : ∀ f ∈ (read (indentedCase "  y\n")).filterMap Item.fence?,
        f.language = programLanguage → f.content = ascii "x<1" := by decide +kernel
    have hscan : Token.scan (ascii "x<1") = .ok [⟨.ident, 0, ascii "x", 0⟩,
        ⟨.punct, 1, ascii "<", 0⟩, ⟨.num, 2, ascii "1", 1⟩, .eof 3] := by decide +kernel
    intro f hf hlanguage toks htoks
    rw [hcontent f (mem_fences.mpr hf) hlanguage, hscan] at htoks
    cases htoks
    decide
  obtain ⟨cs, hc, hn⟩ := Outcome.map_eq_ok.mp hnames
  obtain ⟨cs', hcs', hall⟩ := testCases_update commonMark_read hout htabs htokens hc hu
  exact ⟨cs, cs', hc, hn, hu, hcs', hall⟩

end StackC.Corpus
