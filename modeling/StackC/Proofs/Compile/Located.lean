import StackC.Proofs.Compile.Dump
import StackC.Proofs.Diagnostic.Caret
import StackC.Proofs.Token.Places
import StackC.Proofs.Tree.Blame

/-! Every source text that is refused is refused for an error with a place in it, unless it has no
main function. -/
namespace StackC

inductive SourceError.Located (src : Bytes) (e : SourceError) : Prop
  | lex (stage : e.diagnostic.stage = .lex) (failed : Token.scan src = .error e)
      (lower : 0 ≤ e.offset) (upper : e.offset < src.length)
  /-- An error of syntax stands at a token or at the end mark. -/
  | parse {toks : List Token} {t : Token} (stage : e.diagnostic.stage = .parse)
      (scanned : Token.scan src = .ok toks) (mem : t ∈ toks)
      (ends : t.kind = .eof → t.pos = src.length) (place : e.offset = t.pos)
  | codegen {toks : List Token} {t : Token} (stage : e.diagnostic.stage = .codegen)
      (hasMain : e.cause ≠ .noMain) (scanned : Token.scan src = .ok toks) (mem : t ∈ toks)
      (notEnd : t.kind ≠ .eof) (place : e.offset = t.pos)
  | noMain (cause : e.cause = .noMain) (place : e.offset = SourceError.noOffset)

namespace SourceError.Located

variable {src : Bytes} {e : SourceError}

theorem bounds (h : e.Located src) (hm : e.cause ≠ .noMain) :
    0 ≤ e.offset ∧ e.offset ≤ src.length := by
  cases h with
  | lex stage failed lower upper => exact ⟨lower, Int.le_of_lt upper⟩
  | parse stage scanned mem ends place =>
    rw [place]
    exact (Token.places_of_scan scanned).bounds mem
  | codegen stage hasMain scanned mem notEnd place =>
    rw [place]
    exact (Token.places_of_scan scanned).bounds mem
  | noMain cause place => exact absurd cause hm

theorem offset_eq_noOffset_iff (h : e.Located src) :
    e.offset = SourceError.noOffset ↔ e.cause = .noMain := by
  constructor
  · intro ho
    by_contra hm
    have hb := h.bounds hm
    rw [ho] at hb
    exact absurd hb.1 (by decide)
  · intro hm
    have hs : e.diagnostic.stage = .codegen := by rw [diagnostic, hm]; rfl
    cases h with
    | lex stage failed lower upper =>
      rw [stage] at hs
      cases hs
    | parse stage scanned mem ends place =>
      rw [stage] at hs
      cases hs
    | codegen stage hasMain scanned mem notEnd place => exact absurd hm hasMain
    | noMain cause place => exact place

/-- In a text that can be cut into tokens an error stands at one of them. -/
theorem exists_token (h : e.Located src) {toks : List Token} (hsrc : Token.scan src = .ok toks) :
    e.offset = SourceError.noOffset ∨ ∃ t ∈ toks, e.offset = t.pos := by
  cases h with
  | lex stage failed lower upper =>
    rw [hsrc] at failed
    cases failed
  | parse stage scanned mem ends place | codegen stage hasMain scanned mem notEnd place =>
    rw [hsrc, Except.ok.injEq] at scanned
    subst scanned
    exact .inr ⟨_, mem, place⟩
  | noMain cause place => exact .inl place

end SourceError.Located

theorem Violation.stage_error (v : Violation) : v.error.diagnostic.stage = .codegen := by
  cases v <;> rfl

theorem Violation.eq_noMain {v : Violation} (h : v.error.cause = .noMain) : v = .noMain := by
  cases v with
  | noMain => rfl
  | _ => cases h

theorem Grammar.endOffset_of_scan {src : Bytes} {toks : List Token}
    (h : Token.scan src = .ok toks) : endOffset toks = src.length := by
  rw [endOffset, (Token.places_of_scan h).find?_eof]
  rfl

/-- An error of syntax is located. -/
theorem Grammar.located_of_halt {src : Bytes} {toks : List Token} {req : Requirements} {halt : Halt}
    (hsrc : Token.scan src = .ok toks) (h : parse toks req = .error halt) :
    halt.error.Located src := by
  have hk := keeps_parse toks req
  rw [h] at hk
  cases hk with
  | error stage place =>
    rcases place with ⟨t, ht, hpos⟩ | hstop
    · have hn := Token.kind_of_mem_beforeEnd ht
      have hmem : t ∈ toks := (List.takeWhile_prefix _).subset ht
      exact .parse stage hsrc hmem (fun hk => absurd hk hn) hpos.symm
    · have hmem : Token.eof src.length ∈ toks := by
        rw [(Token.places_of_scan hsrc).ends]
        exact List.mem_append_right _ List.mem_cons_self
      exact .parse stage hsrc hmem (fun _ => rfl) (hstop.trans (endOffset_of_scan hsrc))

/-- What is wrong with a program beyond its syntax is located. -/
theorem Lowering.located_of_error {src : Bytes} {toks : List Token} {req : Requirements}
    {p : Program} {f : Failure} (hsrc : Token.scan src = .ok toks)
    (hp : Grammar.parse toks req = .ok p) (h : program p = .error f) :
    ∃ e, f = .source e ∧ e.Located src := by
  have proper := Grammar.proper_of_parse hsrc hp
  have hk := Grammar.keeps_parse toks req
  rw [hp] at hk
  cases hk with
  | ok holds =>
    have hr := reports_program proper
    have hb := p.blames_violations proper holds
    rw [h] at hr
    cases hv : p.violations with
    | nil =>
      rw [hv] at hr
      obtain ⟨code, hc⟩ := hr
      cases hc
    | cons v vs =>
      rw [hv] at hr hb
      cases hr
      refine ⟨v.error, rfl, ?_⟩
      by_cases hm : v = .noMain
      · rw [hm]
        exact .noMain rfl rfl
      · obtain ⟨t, ht, hpos⟩ := (hb v List.mem_cons_self).resolve_left hm
        exact .codegen v.stage_error (fun hc => hm (Violation.eq_noMain hc)) hsrc
          ((List.takeWhile_prefix _).subset ht) (Token.kind_of_mem_beforeEnd ht) hpos.symm

theorem compile_of_halt {mode : Mode} (hmode : mode ≠ .tokens) {src : Bytes} {toks : List Token}
    {halt : Grammar.Halt} (hsrc : Token.scan src = .ok toks)
    (hp : Grammar.parse toks {} = .error halt) :
    (compile mode src).result = .error (.source halt.error) := by
  simp [compile, hsrc, hp, hmode]

theorem located_of_compile {mode : Mode} {src : Bytes} {f : Failure}
    (h : (compile mode src).result = .error f) : ∃ e, f = .source e ∧ e.Located src := by
  cases hsrc : Token.scan src with
  | error e =>
    simp only [compile, hsrc, Except.error.injEq] at h
    obtain ⟨hs, hlo, hhi⟩ := Token.error_of_scanFrom hsrc
    rw [Nat.zero_add] at hhi
    exact ⟨e, h.symm, .lex hs hsrc hlo hhi⟩
  | ok toks =>
    cases hp : Grammar.parse toks {} with
    | error halt =>
      cases mode with
      | tokens => simp [compile, hsrc] at h
      | asm | ast =>
        rw [compile_of_halt (by decide) hsrc hp] at h
        cases h
        exact ⟨halt.error, rfl, Grammar.located_of_halt hsrc hp⟩
    | ok p =>
      obtain ⟨d, -, hast, hasm⟩ := compile_of_parse hsrc hp
      cases mode with
      | tokens => simp [compile, hsrc] at h
      | ast =>
        rw [hast] at h
        cases h
      | asm =>
        rw [hasm] at h
        cases hl : Lowering.program p with
        | ok code =>
          rw [hl] at h
          cases h
        | error f' =>
          rw [hl] at h
          cases h
          exact Lowering.located_of_error hsrc hp hl

/-- A compilation fails with an error of the source that is located in it, and the error is shown
under its line, behind a caret. Only the lack of a main function has no place, and is told alone. -/
theorem compile_error_located {mode : Mode} {src : Bytes} {f : Failure}
    (h : (compile mode src).result = .error f) :
    ∃ e : SourceError, f = .source e ∧ e.Located src ∧
      (e.offset = SourceError.noOffset ↔ e.cause = .noMain) ∧
      (e.cause ≠ .noMain → 0 ≤ e.offset ∧ e.offset ≤ src.length ∧
        ∀ color, e.diagnostic.PointsAt src color (f.complaint.render src color)) ∧
      (e.cause = .noMain → ∀ color,
        f.complaint.render src color = ascii "codegen error: no 'main' function\n") := by
  obtain ⟨e, rfl, hl⟩ := located_of_compile h
  refine ⟨e, rfl, hl, hl.offset_eq_noOffset_iff, ?_, ?_⟩
  · intro hm
    obtain ⟨hlo, hhi⟩ := hl.bounds hm
    exact ⟨hlo, hhi, fun color => Diagnostic.pointsAt_render color hlo hhi⟩
  · intro hm color
    have ho := hl.offset_eq_noOffset_iff.mpr hm
    obtain ⟨cause, offset⟩ := e
    cases hm
    cases ho
    exact Diagnostic.render_of_neg color (by decide)

/-- A block that assigns to a number, on a line of its own behind a tab. -/
def numberTarget : Bytes := ascii "\x7b\n\t1=2;\n\x7d"

def numberTargetTokens : List Token :=
  [⟨.punct, 0, ascii "\x7b", 0⟩, ⟨.num, 3, ascii "1", 1⟩, ⟨.punct, 4, ascii "=", 0⟩,
    ⟨.num, 5, ascii "2", 2⟩, ⟨.punct, 6, ascii ";", 0⟩, ⟨.punct, 8, ascii "\x7d", 0⟩, .eof 9]

def numberTargetTree : Program where
  topLevel := true
  funcs := [{ name := [], pos := 0, body := some {
    pos := 0, stmts := [.expr 3 (.assign 4 (.num 3 1) (.num 5 2))] } }]
  req := {}

theorem compile_error_located_numberTarget :
    (compile .asm numberTarget).result = .error (.source ⟨.notLvalue, 3⟩) ∧
      SourceError.Located numberTarget ⟨.notLvalue, 3⟩ ∧
      Diagnostic.PointsAt ⟨.codegen, 3, ascii "not an lvalue"⟩ numberTarget false
        (ascii "line 2: codegen error\n\t1=2;\n\t^ not an lvalue\n") := by
  have hsrc : Token.scan numberTarget = .ok numberTargetTokens := by decide +kernel
  have hp : Grammar.parse numberTargetTokens {} = .ok numberTargetTree := Grammar.parse_of_walk rfl
  have h : (compile .asm numberTarget).result = .error (.source ⟨.notLvalue, 3⟩) := by
    obtain ⟨-, -, -, hasm⟩ := compile_of_parse hsrc hp
    rw [hasm]
    decide +kernel
  have hshown : (Failure.source ⟨.notLvalue, 3⟩).complaint.render numberTarget false =
      ascii "line 2: codegen error\n\t1=2;\n\t^ not an lvalue\n" := by decide +kernel
  obtain ⟨e, he, hloc, -, hpoints, -⟩ := compile_error_located h
  cases he
  have hp := (hpoints (by decide)).2.2 false
  rw [hshown] at hp
  exact ⟨h, hloc, hp⟩

end StackC
