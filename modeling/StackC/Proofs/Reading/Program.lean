import StackC.Proofs.Reading.Stmt

/-! Reading whole programs as a relation, and its agreement with the parser. -/
namespace StackC.Grammar

inductive ReadsFunction : State → Function → State → Prop
  | intro {s s₁ : State} {stars : List Token} {t name opening closing brace : Token}
      {stmts : List Stmt} (isInt : t.is (ascii "int")) (areStars : ∀ t ∈ stars, t.is (ascii "*"))
      (isName : name.kind = .ident) (opens : opening.is (ascii "("))
      (closes : closing.is (ascii ")")) (begins : brace.is (ascii "\x7b"))
      (inner : ReadsStmt .block { s with locals := [] } stmts s₁) :
      ReadsFunction
        (((((s.push brace).push closing).push opening).push name).pushAll stars |>.push t)
        { name := name.lit, returnType := .stars stars.length, pos := name.pos,
          locals := s₁.locals, body := some { pos := brace.pos, stmts } } s₁

/-- The functions up to the end, behind those already known. -/
inductive ReadsFunctions : List Function → State → Program → Prop
  | done {known : List Function} {s : State} (ended : s.ahead = []) :
      ReadsFunctions known s { topLevel := false, funcs := known, req := s.req }
  | more {known : List Function} {s s₁ : State} {f : Function} {p : Program}
      (first : ReadsFunction s f s₁) (isNew : findFunction? known f.name = none)
      (rest : ReadsFunctions (known ++ [f]) s₁ p) :
      ReadsFunctions known s p

inductive ReadsProgram : State → Program → Prop
  | topLevel {s s₁ : State} {t : Token} {stmts : List Stmt} (opens : t.is (ascii "\x7b"))
      (inner : ReadsStmt .block s stmts s₁) (ended : s₁.ahead = []) :
      ReadsProgram (s.push t)
        { topLevel := true
          funcs := [{ name := [], pos := t.pos, locals := s₁.locals,
                      body := some { pos := t.pos, stmts } }]
          req := s₁.req }
  | functions {s : State} {p : Program} (notBlock : s.starts (ascii "\x7b") = false)
      (inner : ReadsFunctions [] s p) :
      ReadsProgram s p

def initial (toks : List Token) (req : Requirements) : State :=
  { ahead := Token.beforeEnd toks, stop := endOffset toks, req }

theorem readsFunction_of_ok {s : State} {p : Progress s Function} (h : function s = .ok p) :
    ReadsFunction s p.value p.state := by
  rw [function] at h
  split at h
  · cases h
  · next t s₁ h₁ hacc =>
    obtain ⟨⟨name, s₂, h₂⟩, hn, h⟩ := Outcome.bind_eq_ok.mp h
    obtain ⟨⟨opening, s₃, h₃⟩, ho, h⟩ := Outcome.bind_eq_ok.mp h
    obtain ⟨⟨closing, s₄, h₄⟩, hc, h⟩ := Outcome.bind_eq_ok.mp h
    obtain ⟨⟨brace, s₅, h₅⟩, hb, h⟩ := Outcome.bind_eq_ok.mp h
    obtain ⟨⟨stmts, s₆, h₆⟩, hi, h⟩ := Outcome.bind_eq_ok.mp h
    cases h
    obtain ⟨stars, hstars, hs₁, hty⟩ := exists_pushAll s₁
    obtain ⟨hs, isInt⟩ := accept?_eq_some hacc
    obtain ⟨hs₂, isName⟩ := identifier_eq_ok hn
    obtain ⟨hs₃, opens⟩ := expect_eq_ok ho
    obtain ⟨hs₄, closes⟩ := expect_eq_ok hc
    obtain ⟨hs₅, begins⟩ := expect_eq_ok hb
    have inner : ReadsStmt .block { s₅ with locals := [] } stmts s₆ :=
      StmtForm.sound .block _ _ _ (by rw [StmtForm.run, hi]; rfl)
    change ReadsFunction s
      { name := name.lit, returnType := (pointers s₁).value, pos := name.pos,
        locals := s₆.locals, body := some { pos := brace.pos, stmts } } s₆
    rw [hty, hs, hs₁, hs₂, hs₃, hs₄, hs₅]
    exact .intro isInt hstars isName opens closes begins inner

theorem function_of_reads {s s' : State} {f : Function} (h : ReadsFunction s f s') :
    ∃ h₁, function s = .ok ⟨f, s', h₁⟩ := by
  cases h with
  | @intro s s₁ stars t name opening closing brace stmts isInt areStars isName opens closes begins
      inner =>
    obtain ⟨h₁, hb⟩ := list_eq_ok (run_of_readsStmt inner)
    have hp := pointers_pushAll (s := ((s.push brace).push closing).push opening) areStars
      (Token.is_eq_false_of_ident isName _)
    refine ⟨by simp [State.pushAll] at h₁ ⊢; omega, ?_⟩
    rw [function]
    simp only [accept?_push, isInt, if_true]
    rw [hp]
    simp [identifier_push isName, expect_push opens, expect_push closes, expect_push begins, hb]

theorem readsFunctions_of_ok (known : List Function) (s : State) {p : Program}
    (h : functions known s = .ok p) : ReadsFunctions known s p := by
  rw [functions] at h
  split at h
  case isTrue he =>
    cases h
    exact .done (List.isEmpty_iff.mp he)
  case isFalse he =>
    obtain ⟨⟨f, s₁, h₁⟩, hf, h⟩ := Outcome.bind_eq_ok.mp h
    simp only at h
    split at h
    · cases h
    · next hn =>
      rw [Option.not_isSome_iff_eq_none] at hn
      exact .more (readsFunction_of_ok hf) hn (readsFunctions_of_ok (known ++ [f]) s₁ h)
termination_by s.ahead.length

theorem functions_of_reads {known : List Function} {s : State} {p : Program}
    (h : ReadsFunctions known s p) : functions known s = .ok p := by
  induction h with
  | done ended => rw [functions]; simp [ended]
  | @more known s s₁ f p first isNew rest ih =>
    obtain ⟨h₁, hf⟩ := function_of_reads first
    have he : s.ahead ≠ [] := by
      intro he
      simp [he] at h₁
    rw [functions]
    simp [he, hf, isNew, ih]

theorem readsProgram_of_topLevel {s : State} {t : Token} {p : Program} (ht : t.is (ascii "\x7b"))
    (h : topLevel t s = .ok p) : ReadsProgram (s.push t) p := by
  rw [topLevel] at h
  obtain ⟨⟨stmts, s₁, h₁⟩, hb, h⟩ := Outcome.bind_eq_ok.mp h
  have inner := StmtForm.sound .block s _ _ (by rw [StmtForm.run, hb]; rfl)
  simp only at h
  split at h
  · next he =>
    cases h
    exact .topLevel ht inner (List.isEmpty_iff.mp he)
  · cases h

theorem parse_eq_functions {toks : List Token} {req : Requirements}
    (h : (initial toks req).starts (ascii "\x7b") = false) :
    parse toks req = functions [] (initial toks req) := by
  unfold initial at h ⊢
  cases ht : Token.beforeEnd toks with
  | nil => simp only [parse, ht]
  | cons t rest =>
    have hb : t.is (ascii "\x7b") = false := by simpa [State.starts, ht] using h
    simp only [parse, ht, hb, Bool.false_eq_true, if_false]

theorem parse_eq_topLevel {toks : List Token} {req : Requirements} {s : State} {t : Token}
    (hs : initial toks req = s.push t) (ht : t.is (ascii "\x7b")) :
    parse toks req = topLevel t s := by
  have ha : Token.beforeEnd toks = t :: s.ahead := congrArg State.ahead hs
  have hr : s = { initial toks req with ahead := s.ahead } := by rw [hs, State.push]
  rw [hr]
  simp only [parse, ha, ht, if_true, initial]

/-- A token list is parsed as exactly the program that is read from it. -/
theorem parse_eq_ok_iff {toks : List Token} {req : Requirements} {p : Program} :
    parse toks req = .ok p ↔ ReadsProgram (initial toks req) p := by
  constructor
  · intro h
    by_cases hb : (initial toks req).starts (ascii "\x7b") = false
    · rw [parse_eq_functions hb] at h
      exact .functions hb (readsFunctions_of_ok [] _ h)
    · rcases (initial toks req).ended_or_push with he | ⟨t, s, hs⟩
      · simp [State.starts, he] at hb
      · rw [hs, State.starts_push, Bool.not_eq_false] at hb
        rw [parse_eq_topLevel hs hb] at h
        rw [hs]
        exact readsProgram_of_topLevel hb h
  · intro h
    generalize hi : initial toks req = i at h
    cases h with
    | topLevel opens inner ended =>
      obtain ⟨h₁, hb⟩ := list_eq_ok (run_of_readsStmt inner)
      rw [parse_eq_topLevel hi opens, topLevel]
      simp [hb, ended]
    | functions notBlock inner =>
      rw [parse_eq_functions (hi ▸ notBlock), hi]
      exact functions_of_reads inner

end StackC.Grammar
