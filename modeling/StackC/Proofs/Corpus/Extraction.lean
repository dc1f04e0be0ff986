import StackC.Proofs.Corpus.Agreement
import StackC.Proofs.Corpus.Sections

/-! The test cases of a document are its sections. -/
namespace StackC.Corpus

section Reading

variable {f : Fence} {current next : Option Draft} {s : Option Section} {cs : List TestCase}
  {fault : Fault}

/-- The unfinished case is what has been read of the section. -/
inductive Draft.Reads : Draft → Section → Prop
  | fresh (name : Bytes) : Reads { name } ⟨name, []⟩
  | given {name : Bytes} {program : Fence} {expectations : List Fence}
      {assertions : List Assertion} (language : IsProgram program)
      (states : List.Forall₂ States expectations assertions) :
      Reads ⟨name, some program.content, assertions⟩ ⟨name, program :: expectations⟩

theorem reads_nil : Option.Rel Draft.Reads none (lastSection []) := .none

namespace Draft.Reads

variable {d : Draft} {s : Section}

theorem name_eq (h : d.Reads s) : d.name = s.name := by
  cases h <;> rfl

theorem input_eq_none (h : d.Reads s) : d.input = none ↔ ∀ p ∈ s.fences, ¬IsProgram p := by
  cases h with
  | fresh name => simp
  | given language states =>
    refine iff_of_false (fun hnone => by cases hnone) fun hmissing => ?_
    exact hmissing _ List.mem_cons_self language

theorem exists_input (h : d.Reads s) : (∃ i, d.input = some i) ↔ ∃ p ∈ s.fences, IsProgram p := by
  cases h with
  | fresh name => simp
  | @given _ program _ _ language states =>
    exact iff_of_true ⟨_, rfl⟩ ⟨program, List.mem_cons_self, language⟩

theorem assertions_eq_nil (h : d.Reads s) :
    d.assertions = [] ↔ ∀ f ∈ s.fences, ¬IsExpectation f := by
  cases h with
  | fresh name => simp
  | given language states =>
    have hprogram : ¬IsExpectation _ := fun he => he.not_isProgram language
    cases states with
    | nil => simp [hprogram]
    | cons hfirst _ => simp [hfirst.isExpectation]

/-- A finished case is what its section gives. -/
theorem gives {c : TestCase} (h : d.Reads s) (hc : d.finish = .ok c) : s.Gives c := by
  cases h with
  | fresh name => cases hc
  | @given name program expectations assertions language states =>
    cases assertions with
    | nil => cases hc
    | cons a as =>
      cases hc
      exact ⟨rfl, program, expectations, rfl, language, rfl, List.cons_ne_nil a as, states⟩

/-- A section that is not complete is at fault where it ends. -/
theorem finish_eq_error (h : d.Reads s) {next : Option Block}
    (ends : ∀ b ∈ next, (caseName? b).isSome) :
    d.finish = .error fault ↔ Violates (some s) next fault := by
  constructor
  · intro herror
    cases hi : d.input with
    | none =>
      simp only [Draft.finish, hi, Except.error.injEq] at herror
      subst herror
      rw [h.name_eq]
      exact .noProgram ends (h.input_eq_none.mp hi)
    | some i =>
      cases ha : d.assertions with
      | nil =>
        simp only [Draft.finish, hi, ha, Except.error.injEq] at herror
        subst herror
        rw [h.name_eq]
        exact .noAssertion ends (h.exists_input.mp ⟨i, hi⟩) (h.assertions_eq_nil.mp ha)
      | cons a as => simp [Draft.finish, hi, ha] at herror
  · intro hv
    cases hv with
    | noProgram _ missing => simp only [Draft.finish, h.input_eq_none.mpr missing, h.name_eq]
    | noAssertion _ given missing =>
      obtain ⟨i, hi⟩ := h.exists_input.mpr given
      simp only [Draft.finish, hi, h.assertions_eq_nil.mpr missing, h.name_eq]
    | _ => cases ends _ rfl

end Draft.Reads

theorem finishAll_eq_error (h : Option.Rel Draft.Reads current s) {next : Option Block}
    (ends : ∀ b ∈ next, (caseName? b).isSome) :
    finishAll current = .error fault ↔ Violates s next fault := by
  cases h with
  | none =>
    refine iff_of_false (fun herror => by cases herror) fun hv => ?_
    cases hv <;> cases ends _ rfl
  | @some d s h =>
    rw [← h.finish_eq_error ends, finishAll, Outcome.bind_eq_error]
    simp

theorem finishAll_gives (h : Option.Rel Draft.Reads current s) (hc : finishAll current = .ok cs) :
    List.Forall₂ Section.Gives s.toList cs := by
  cases h with
  | none =>
    cases hc
    exact .nil
  | some h =>
    obtain ⟨c, hfinish, hc⟩ := Outcome.bind_eq_ok.mp hc
    cases hc
    exact .cons (h.gives hfinish) .nil

private theorem readPattern_eq_error {e : Expectation} {line : Nat} {name content : Bytes} :
    readPattern e line name content = .error fault ↔
      e = .ast ∧ ∃ x, SExpr.read content = .error x ∧ fault = .badPattern line name x := by
  cases e with
  | ast =>
    rw [readPattern]
    cases SExpr.read content with
    | ok n => simp
    | error x => simp [eq_comm]
  | _ => simp [readPattern]

theorem ofLanguage?_eq_none :
    Role.ofLanguage? f.language = none ↔ ¬IsProgram f ∧ ¬IsExpectation f := by
  constructor
  · intro h
    constructor
    · intro hp
      rw [hp, ofLanguage?_program] at h
      cases h
    · rintro ⟨e, he⟩
      rw [he, ofLanguage?_expectation] at h
      cases h
  · rintro ⟨hp, he⟩
    cases h : Role.ofLanguage? f.language with
    | none => rfl
    | some role =>
      rcases ofLanguage?_eq_some h with ⟨hlang, -⟩ | ⟨e, hlang, -⟩
      · exact absurd hlang hp
      · exact absurd ⟨e, hlang⟩ he

/-- A fence is refused for something that is wrong with it. -/
theorem violates_of_addFence (h : Option.Rel Draft.Reads current s)
    (herror : addFence current f = .error fault) : Violates s (some (.fence f)) fault := by
  cases hl : f.language.isEmpty with
  | true => simp [addFence, hl] at herror
  | false =>
    cases hr : Role.ofLanguage? f.language with
    | none =>
      simp only [addFence, hl, hr] at herror
      cases herror
      have htagged : f.language ≠ [] := fun h => by simp [h] at hl
      obtain ⟨hp, he⟩ := ofLanguage?_eq_none.mp hr
      exact .unknownLanguage htagged hp he
    | some role =>
      have hrole := ofLanguage?_eq_some hr
      cases h with
      | none =>
        simp only [addFence, hl, hr] at herror
        cases herror
        refine .outsideCase ?_
        rcases hrole with ⟨hp, -⟩ | ⟨e, he, -⟩
        · exact .inl hp
        · exact .inr ⟨e, he⟩
      | @some d s h =>
        rcases hrole with ⟨hp, rfl⟩ | ⟨e, he, rfl⟩
        · cases hi : d.input with
          | none => simp [addFence, hl, hr, hi] at herror
          | some i =>
            simp only [addFence, hl, hr, hi] at herror
            cases herror
            rw [h.name_eq]
            exact .secondProgram hp (h.exists_input.mp ⟨i, hi⟩)
        · cases hi : d.input with
          | none =>
            simp only [addFence, hl, hr, hi] at herror
            cases herror
            rw [h.name_eq]
            exact .beforeProgram ⟨e, he⟩ (h.input_eq_none.mp hi)
          | some i =>
            simp only [addFence, hl, hr, hi] at herror
            rcases Outcome.bind_eq_error.mp herror with hread | ⟨pattern, -, hok⟩
            · obtain ⟨rfl, x, hx, rfl⟩ := readPattern_eq_error.mp hread
              rw [h.name_eq]
              exact .badPattern he (h.exists_input.mp ⟨i, hi⟩) hx
            · cases hok

private theorem addFence_eq_error (h : Option.Rel Draft.Reads current s) :
    addFence current f = .error fault ↔ Violates s (some (.fence f)) fault := by
  refine ⟨violates_of_addFence h, fun hv => ?_⟩
  cases hv with
  | unknownLanguage tagged program expectation =>
    simp [addFence, tagged, ofLanguage?_eq_none.mpr ⟨program, expectation⟩]
  | outsideCase known =>
    cases h
    rcases known with hp | ⟨e, he⟩
    · simp [addFence, language_ne_nil (.inl hp), hp ▸ ofLanguage?_program]
    · simp [addFence, language_ne_nil (.inr ⟨e, he⟩), he ▸ ofLanguage?_expectation e]
  | secondProgram program given =>
    obtain @⟨d, s, h⟩ := h
    obtain ⟨i, hi⟩ := h.exists_input.mpr given
    simp [addFence, language_ne_nil (.inl program), program ▸ ofLanguage?_program, hi, h.name_eq]
  | beforeProgram expectation missing =>
    obtain @⟨d, s, h⟩ := h
    obtain ⟨e, he⟩ := expectation
    have hi := h.input_eq_none.mpr missing
    simp [addFence, language_ne_nil (.inr ⟨e, he⟩), he ▸ ofLanguage?_expectation e, hi, h.name_eq]
  | badPattern ast given rejected =>
    obtain @⟨d, s, h⟩ := h
    obtain ⟨i, hi⟩ := h.exists_input.mpr given
    simp [addFence, language_ne_nil (.inr ⟨.ast, ast⟩), ast ▸ ofLanguage?_expectation .ast, hi,
      h.name_eq, readPattern, rejected]
  | noProgram ends => cases ends _ rfl
  | noAssertion ends => cases ends _ rfl

private theorem states_of_readPattern {e : Expectation} {name : Bytes} {pattern : Option SExpr.Node}
    (language : f.language = e.language)
    (h : readPattern e f.lineNumber name f.content = .ok pattern) :
    States f ⟨e, f.content, pattern, f.lineNumber⟩ where
  language := language
  content := rfl
  line := rfl
  pattern he := by
    subst he
    rw [readPattern] at h
    cases hread : SExpr.read f.content with
    | ok n =>
      rw [hread] at h
      cases h
      exact ⟨n, rfl, rfl⟩
    | error x =>
      rw [hread] at h
      cases h
  noPattern he := by
    cases e with
    | ast => exact absurd rfl he
    | _ =>
      cases h
      rfl

/-- A fence that is taken goes on with the section. -/
theorem Adds.reads (h : Option.Rel Draft.Reads current s) (hadds : Adds f current next) :
    Option.Rel Draft.Reads next (s.map (·.add (tagged? (.fence f)).toList)) := by
  cases hadds with
  | prose language =>
    have hprose : tagged? (.fence f) = none := by simp [tagged?, language]
    rw [hprose]
    simpa using h
  | @program d language first =>
    rw [tagged?_fence (language_ne_nil (.inl language))]
    obtain ⟨h⟩ := h
    cases h with
    | fresh name => exact .some (.given language .nil)
    | given => cases first
  | @assertion d e i pattern language given read =>
    rw [tagged?_fence (language_ne_nil (.inr ⟨e, language⟩))]
    obtain ⟨h⟩ := h
    cases h with
    | fresh name => cases given
    | given program states =>
      have hstates := states_of_readPattern language read
      exact .some (.given program (List.rel_append states (.cons hstates .nil)))

end Reading

section Run

variable {b : Block} {bs before rest : List Block} {current next : Option Draft}
  {s : Option Section} {done cs : List TestCase} {fault : Fault} {e : ExtractError}

/-- What a block does to the case that is being read: the cases that it ends, and the case behind
it. -/
def advance (current : Option Draft) : Block → Except Fault (List TestCase × Option Draft)
  | .heading text =>
    match Text.after? caseMark text with
    | none => .ok ([], current)
    | some name => (finishAll current).map (·, some { name })
  | .fence f => (addFence current f).map ([], ·)

theorem casesFrom_cons_error (h : advance current b = .error fault) :
    casesFrom current (b :: rest) = .error ⟨fault, true⟩ := by
  cases b with
  | heading text =>
    cases hname : Text.after? caseMark text with
    | none => simp [advance, hname] at h
    | some name =>
      simp only [advance, hname] at h
      simp only [casesFrom, hname, Outcome.map_eq_error.mp h]
      rfl
  | fence f =>
    simp only [casesFrom, Outcome.map_eq_error.mp h]
    rfl

theorem casesFrom_cons_ok (h : advance current b = .ok (done, next)) :
    casesFrom current (b :: rest) = (casesFrom next rest).map (done ++ ·) := by
  cases b with
  | heading text =>
    cases hname : Text.after? caseMark text with
    | none =>
      simp only [advance, hname] at h
      cases h
      simp only [casesFrom, hname, List.nil_append]
      cases casesFrom current rest <;> rfl
    | some name =>
      simp only [advance, hname] at h
      obtain ⟨done, hdone, h⟩ := Outcome.map_eq_ok.mp h
      cases h
      simp only [casesFrom, hname, mapError_eq_ok.mpr hdone, Outcome.ok_bind]
      rfl
  | fence f =>
    obtain ⟨next, hnext, h⟩ := Outcome.map_eq_ok.mp h
    cases h
    simp only [casesFrom, mapError_eq_ok.mpr hnext, Outcome.ok_bind, List.nil_append]
    cases casesFrom next rest <;> rfl

private theorem advance_eq_error (h : Option.Rel Draft.Reads current s) :
    advance current b = .error fault ↔ Violates s (some b) fault := by
  cases b with
  | fence f => rw [advance, Outcome.map_eq_error, addFence_eq_error h]
  | heading text =>
    cases hname : Text.after? caseMark text with
    | none =>
      have hcase : (caseName? (.heading text)).isSome = false := by rw [caseName?, hname]; rfl
      refine iff_of_false (by simp [advance, hname]) fun hv => ?_
      cases hv with
      | noProgram ends | noAssertion ends =>
        have hends := ends _ rfl
        rw [hcase] at hends
        cases hends
    | some name =>
      have ends : ∀ b ∈ some (Block.heading text), (caseName? b).isSome := by
        rintro b ⟨⟩
        rw [caseName?, hname]
        rfl
      simp only [advance, hname, Outcome.map_eq_error]
      exact finishAll_eq_error h ends

/-- A block that is taken goes on with the section, or ends it and begins the next. -/
theorem advance_reads (h : Option.Rel Draft.Reads current s)
    (hok : advance current b = .ok (done, next)) :
    List.Forall₂ Section.Gives (follow s b).1 done ∧
      Option.Rel Draft.Reads next (follow s b).2 := by
  cases b with
  | fence f =>
    obtain ⟨next, hnext, hok⟩ := Outcome.map_eq_ok.mp hok
    cases hok
    exact ⟨.nil, (addFence_eq_ok.mp hnext).reads h⟩
  | heading text =>
    cases hname : Text.after? caseMark text with
    | none =>
      simp only [advance, hname] at hok
      cases hok
      simp only [follow, caseName?, hname, tagged?]
      refine ⟨.nil, ?_⟩
      simpa using h
    | some name =>
      simp only [advance, hname] at hok
      obtain ⟨done, hdone, hok⟩ := Outcome.map_eq_ok.mp hok
      cases hok
      simp only [follow, caseName?, hname]
      exact ⟨finishAll_gives h hdone, .some (.fresh name)⟩

/-- The cases are what the sections give, that of the case that is being read first. -/
theorem casesFrom_gives (h : Option.Rel Draft.Reads current s)
    (hok : casesFrom current bs = .ok cs) : List.Forall₂ Section.Gives (pending s bs) cs := by
  -- A block moves sections from those to come to those that are done, and keeps their order.
  induction bs generalizing current s cs with
  | nil =>
    rw [pending_nil]
    exact finishAll_gives h (mapError_eq_ok.mp hok)
  | cons b bs ih =>
    cases hstep : advance current b with
    | error fault =>
      rw [casesFrom_cons_error hstep] at hok
      cases hok
    | ok x =>
      obtain ⟨done, next⟩ := x
      rw [casesFrom_cons_ok hstep] at hok
      obtain ⟨more, hmore, hcs⟩ := Outcome.map_eq_ok.mp hok
      obtain ⟨hgives, hnext⟩ := advance_reads h hstep
      rw [pending_cons, ← hcs]
      exact List.rel_append hgives (ih hnext hmore)

/-- Before the first case there is only prose. -/
theorem leading_eq_nil (hok : casesFrom none bs = .ok cs) : leading bs = [] := by
  induction bs with
  | nil => rfl
  | cons b bs ih =>
    cases b with
    | heading text =>
      cases hname : Text.after? caseMark text with
      | none =>
        rw [leading_cons (b := .heading text) hname]
        simp only [casesFrom, hname] at hok
        exact ih hok
      | some name => exact leading_cons_case hname
    | fence f =>
      rw [leading_cons rfl]
      obtain ⟨next, hnext, hok⟩ := Outcome.bind_eq_ok.mp hok
      cases addFence_eq_ok.mp (mapError_eq_ok.mp hnext) with
      | prose language =>
        simp only [tagged?, language, List.isEmpty_nil, if_true, Option.toList_none,
          List.nil_append]
        exact ih hok

/-- The error is the first fault behind the blocks that have been read. -/
theorem casesFrom_eq_error (h : Option.Rel Draft.Reads current (lastSection before)) :
    casesFrom current bs = .error e ↔ FirstFault before bs e := by
  induction bs generalizing before current with
  | nil =>
    have hend (fault : Fault) :
        finishAll current = .error fault ↔ Violates (lastSection before) none fault :=
      finishAll_eq_error h (by simp)
    obtain ⟨fault, inside⟩ := e
    rw [firstFault_nil, ← hend]
    cases hfinish : finishAll current with
    | ok cs => simp [casesFrom, hfinish, Except.mapError]
    | error fault => simp [casesFrom, hfinish, Except.mapError, eq_comm]
  | cons b bs ih =>
    rw [firstFault_cons]
    simp only [← advance_eq_error h]
    cases hstep : advance current b with
    | error fault =>
      obtain ⟨fault', inside⟩ := e
      simp [casesFrom_cons_error hstep, eq_comm]
    | ok x =>
      obtain ⟨done, next⟩ := x
      have hnext : Option.Rel Draft.Reads next (lastSection (before ++ [b])) := by
        rw [lastSection_append]
        exact (advance_reads h hstep).2
      rw [casesFrom_cons_ok hstep, Outcome.map_eq_error, ih hnext]
      simp

end Run

section Document

variable {b : Block} {bs before after : List Block} {current : Option Draft} {cs : List TestCase}
  {fault : Fault}

/-- Blocks that give cases have no fault anywhere. -/
theorem not_violates_of_ok (hok : casesFrom none (before ++ after) = .ok cs) :
    ¬Violates (lastSection before) after.head? fault := by
  have clean : ∀ k ≤ (before ++ after).length, ∀ fault,
      ¬Violates (lastSection ((before ++ after).take k)) (before ++ after)[k]? fault := by
    -- With no fault at a smaller number, a fault would be the error.
    intro k
    induction k using Nat.strong_induction_on with
    | _ k ih =>
      intro hk fault hv
      have herror : casesFrom none (before ++ after) =
          .error ⟨fault, decide (k < (before ++ after).length)⟩ :=
        (casesFrom_eq_error reads_nil).mpr
          ⟨k, hk, hv, rfl, fun j hj => ih j hj (hj.le.trans hk)⟩
      rw [hok] at herror
      cases herror
  have hplace := clean before.length (by simp) fault
  rwa [List.take_left, List.getElem?_append_right (Nat.le_refl _), Nat.sub_self,
    ← List.head?_eq_getElem?] at hplace

private theorem wellFormed_of_ok (hok : casesFrom none bs = .ok cs) : WellFormed bs := by
  have known : ∀ f, .fence f ∈ bs → f.language ≠ [] → IsProgram f ∨ IsExpectation f := by
    intro f hf hlang
    by_contra hunknown
    obtain ⟨hp, he⟩ := not_or.mp hunknown
    obtain ⟨before, after, rfl⟩ := List.append_of_mem hf
    exact not_violates_of_ok hok (.unknownLanguage hlang hp he)
  have placed (before f after) (hbs : bs = before ++ .fence f :: after) (hlang : f.language ≠ []) :
      ∃ s, lastSection before = some s := by
    cases hs : lastSection before with
    | some s => exact ⟨s, rfl⟩
    | none =>
      subst hbs
      have hv := Violates.outsideCase (known f (by simp) hlang)
      rw [← hs] at hv
      exact absurd hv (not_violates_of_ok hok)
  refine ⟨known, ?_, ?_, ?_⟩
  · intro before f after hbs hlang
    obtain ⟨s, hs⟩ := placed before f after hbs hlang
    by_contra hno
    have hnone := lastSection_eq_none.mpr fun text htext hmark => hno ⟨text, htext, hmark⟩
    rw [hs] at hnone
    cases hnone
  · have hgives := casesFrom_gives .none hok
    exact ((List.forall₂_and_left _ _).mp (hgives.imp fun _ _ hs => ⟨hs.complete, hs⟩)).1
  · intro f hf hast
    have hexpectation : IsExpectation f := ⟨.ast, hast⟩
    obtain ⟨before, after, rfl⟩ := List.append_of_mem hf
    obtain ⟨s, hs⟩ := placed before f after rfl (language_ne_nil (.inr hexpectation))
    have clean (fault : Fault) : ¬Violates (some s) (some (.fence f)) fault := by
      rw [← hs]
      exact not_violates_of_ok hok
    by_cases given : ∃ p ∈ s.fences, IsProgram p
    · cases hread : SExpr.read f.content with
      | ok n => exact ⟨n, rfl⟩
      | error x => exact absurd (.badPattern hast given hread) (clean _)
    · refine absurd (.beforeProgram hexpectation fun p hp hprogram => ?_) (clean _)
      exact given ⟨p, hp, hprogram⟩

/-- A block that is no prose. -/
def matters (b : Block) : Bool := (caseName? b).isSome || (tagged? b).isSome

private theorem advance_prose (h : matters b = false) : advance current b = .ok ([], current) := by
  obtain ⟨hcase, htagged⟩ := Bool.or_eq_false_iff.mp h
  cases b with
  | heading text =>
    have hname : Text.after? caseMark text = none := by simpa [caseName?] using hcase
    rw [advance, hname]
  | fence f =>
    have hprose : f.language = [] := by simpa [tagged?] using htagged
    rw [advance, addFence_eq_ok.mpr (.prose hprose)]
    rfl

theorem casesFrom_filter : casesFrom current (bs.filter matters) = casesFrom current bs := by
  induction bs generalizing current with
  | nil => rfl
  | cons b bs ih =>
    cases hb : matters b with
    | false =>
      rw [List.filter_cons_of_neg (by simp [hb]), ih, casesFrom_cons_ok (advance_prose hb)]
      cases casesFrom current bs <;> rfl
    | true =>
      rw [List.filter_cons_of_pos hb]
      cases hstep : advance current b with
      | error fault => rw [casesFrom_cons_error hstep, casesFrom_cons_error hstep]
      | ok x =>
        obtain ⟨done, next⟩ := x
        rw [casesFrom_cons_ok hstep, casesFrom_cons_ok hstep, ih]

/-- The test cases of a document are its sections. There are cases exactly if the blocks are well
formed, each section then gives one, and no fence is lost. The error is otherwise the first fault,
and prose changes nothing. -/
theorem testCases_sections (bs : List Block) :
    (∀ reader doc, blocksBy reader doc = bs → testCasesBy reader doc = casesFrom none bs) ∧
    ((∃ cs, casesFrom none bs = .ok cs) ↔ WellFormed bs) ∧
    (∀ cs, casesFrom none bs = .ok cs →
      List.Forall₂ Section.Gives (sections bs) cs ∧
      cs.map TestCase.name = bs.filterMap caseName? ∧
      (sections bs).flatMap Section.fences = bs.filterMap tagged?) ∧
    (∀ e, casesFrom none bs = .error e ↔
      ∃ k ≤ bs.length, Violates (lastSection (bs.take k)) bs[k]? e.fault ∧
        e.inside = decide (k < bs.length) ∧
        ∀ j < k, ∀ fault, ¬Violates (lastSection (bs.take j)) bs[j]? fault) ∧
    casesFrom none (bs.filter matters) = casesFrom none bs := by
  have herror (e : ExtractError) : casesFrom none bs = .error e ↔ FirstFault [] bs e :=
    casesFrom_eq_error reads_nil
  refine ⟨?_, ⟨?_, ?_⟩, ?_, herror, casesFrom_filter⟩
  · rintro reader doc rfl
    rfl
  · rintro ⟨cs, hok⟩
    exact wellFormed_of_ok hok
  · intro hformed
    cases hrun : casesFrom none bs with
    | ok cs => exact ⟨cs, rfl⟩
    | error e =>
      obtain ⟨k, -, hv, -⟩ := (herror e).mp hrun
      rw [← List.take_append_drop k bs] at hformed
      rw [← List.head?_drop] at hv
      exact absurd hv hformed.not_violates
  · intro cs hok
    have hgives : List.Forall₂ Section.Gives (sections bs) cs := casesFrom_gives .none hok
    refine ⟨hgives, ?_, ?_⟩
    · rw [← map_name_sections, map_name_of_gives hgives]
    · rw [← leading_append_sections, leading_eq_nil hok, List.nil_append]

end Document

end StackC.Corpus
