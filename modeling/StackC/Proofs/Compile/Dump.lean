import StackC.Compile
import StackC.Proofs.Lowering.Errors
import StackC.Proofs.Recast.Lowering
import StackC.Proofs.Tree.Unambiguous

/-! The text of the tree of a program determines its code. -/
namespace StackC

theorem Grammar.blank_of_parse {toks : List Token} {req : Requirements} {p : Program}
    (h : parse toks req = .ok p) : p.Blank := by
  have hf {known : List Function} {s : State} {p : Program} (h : ReadsFunctions known s p) :
      p.topLevel = false := by
    induction h with
    | done ended => rfl
    | more first isNew rest ih => exact ih
  intro ht
  rw [parse_eq_ok_iff] at h
  generalize initial toks req = i at h
  cases h with
  | topLevel opens inner ended => exact ⟨_, rfl, rfl, rfl⟩
  | functions notBlock inner =>
    rw [hf inner] at ht
    cases ht

/-- The flags of a program that is parsed alone are those of its operators. -/
theorem Grammar.req_of_uses {src src' : Bytes} {toks toks' : List Token} {p p' : Program}
    (hsrc : Token.scan src = .ok toks) (hsrc' : Token.scan src' = .ok toks')
    (h : parse toks {} = .ok p) (h' : parse toks' {} = .ok p')
    (hu : ∀ op, p.Uses op ↔ p'.Uses op) : p.req = p'.req := by
  have hn {op : BinaryOp} (hop : op ∈ flagged) : p.req.needs op = p'.req.needs op := by
    rw [Bool.eq_iff_iff, needs_iff_uses hsrc h hop, needs_iff_uses hsrc' h' hop]
    exact hu op
  have hlt : p.req.lt = p'.req.lt := @hn .lt (by decide)
  have hle : p.req.le = p'.req.le := @hn .le (by decide)
  have hne : p.req.ne = p'.req.ne := @hn .ne (by decide)
  calc p.req = ⟨p.req.lt, p.req.le, p.req.ne⟩ := rfl
    _ = p'.req := by rw [hlt, hle, hne]

/-- Two outcomes that become the same are the same but for offsets. -/
theorem Lowering.Alike.same {A : Type} {m : Recast} {x y z : Except Failure A} (hx : Alike m x z)
    (hy : Alike m y z) : (∃ a, x = .ok a ∧ y = .ok a) ∨
      ∃ e e', x = .error e ∧ y = .error e' ∧ m.failure e = m.failure e' := by
  cases hx with
  | ok a =>
    cases hy with
    | ok a => exact .inl ⟨a, rfl, rfl⟩
  | error e =>
    generalize hz : m.failure e = f at hy
    cases hy with
    | error e' => exact .inr ⟨e, e', rfl, rfl, hz⟩

/-- A proper program is refused for a reason in its text. -/
theorem Lowering.source_of_mainPart {p : Program} {e : Failure} (hp : p.Proper)
    (h : mainPart p = .error e) : ∃ s, e = .source s := by
  have hr := reports_program hp
  have he : program p = .error e := by
    rw [program_eq_mainPart, h]
    rfl
  rw [he] at hr
  cases hv : p.violations with
  | nil =>
    rw [hv] at hr
    obtain ⟨code, hc⟩ := hr
    cases hc
  | cons v vs =>
    rw [hv] at hr
    cases hr
    exact ⟨v.error, rfl⟩

/-- A parsed program is shown, and its code does not depend on what was asked for. -/
theorem compile_of_parse {src : Bytes} {toks : List Token} {p : Program}
    (hsrc : Token.scan src = .ok toks) (hp : Grammar.parse toks {} = .ok p) :
    ∃ d, p.dump? = some d ∧ (compile .ast src).result = .ok (d ++ [Text.newline]) ∧
      (compile .asm src).result = (Lowering.program p).map Asm.Instr.listing := by
  have hd := p.dump?_eq_print (Grammar.proper_of_parse hsrc hp) (Grammar.named_of_parse hsrc hp)
  refine ⟨p.datum.print, hd, ?_⟩
  unfold compile
  simp only [hsrc, hp, hd]
  refine ⟨rfl, ?_⟩
  cases Lowering.program p <;> rfl

/-- What is shown was parsed, and is read as the s-expression of the program. -/
theorem compile_ast_eq_ok {src d : Bytes} (h : (compile .ast src).result = .ok d) :
    ∃ toks p, Token.scan src = .ok toks ∧ Grammar.parse toks {} = .ok p ∧
      SExpr.read d = .ok p.datum := by
  cases hsrc : Token.scan src with
  | error e => simp [compile, hsrc] at h
  | ok toks =>
    cases hp : Grammar.parse toks {} with
    | error e => simp [compile, hsrc, hp] at h
    | ok p =>
      obtain ⟨t, ht, hast, -⟩ := compile_of_parse hsrc hp
      rw [hast, Except.ok.injEq] at h
      subst h
      have hr := p.read_dump (Grammar.proper_of_parse hsrc hp) (Grammar.named_of_parse hsrc hp) ht
      exact ⟨toks, p, rfl, hp, hr⟩

/-- Two sources with the same tree, as it is shown, have the same code or fail for the same
reason. -/
theorem asm_of_ast_eq {src src' d : Bytes} (h : (compile .ast src).result = .ok d)
    (h' : (compile .ast src').result = .ok d) :
    (∃ out, (compile .asm src).result = .ok out ∧ (compile .asm src').result = .ok out) ∨
      ∃ e e' : SourceError, (compile .asm src).result = .error (.source e) ∧
        (compile .asm src').result = .error (.source e') ∧
        e.diagnostic.stage = e'.diagnostic.stage ∧
        e.diagnostic.message = e'.diagnostic.message := by
  obtain ⟨toks, p, hsrc, hp, hread⟩ := compile_ast_eq_ok h
  obtain ⟨toks', p', hsrc', hp', hread'⟩ := compile_ast_eq_ok h'
  have proper := Grammar.proper_of_parse hsrc hp
  have proper' := Grammar.proper_of_parse hsrc' hp'
  have hdatum : p.datum = p'.datum := by
    rw [hread, Except.ok.injEq] at hread'
    exact hread'
  obtain ⟨htop, hfuncs⟩ := p.funcs_of_datum proper proper' (Grammar.blank_of_parse hp)
    (Grammar.blank_of_parse hp') hdatum
  -- The operators in the tree determine the flags, so nothing but offsets is left to differ.
  have hreq : p.req = p'.req := by
    refine Grammar.req_of_uses hsrc hsrc' hp hp' fun op => ?_
    rw [← Recast.erase.uses_program p, ← Recast.erase.uses_program p']
    unfold Program.Uses Program.nodes Recast.program
    rw [hfuncs]
  have herase : Recast.erase.program p = Recast.erase.program p' := by
    unfold Recast.program
    rw [htop, hfuncs, hreq]
  have ha := Lowering.alike_mainPart (m := Recast.erase) proper fun _ h => h
  have ha' := Lowering.alike_mainPart (m := Recast.erase) proper' fun _ h => h
  rw [herase] at ha
  obtain ⟨-, -, -, hasm⟩ := compile_of_parse hsrc hp
  obtain ⟨-, -, -, hasm'⟩ := compile_of_parse hsrc' hp'
  rw [hasm, hasm', Lowering.program_eq_mainPart, Lowering.program_eq_mainPart, hreq]
  rcases ha.same ha' with ⟨code, hc, hc'⟩ | ⟨e, e', he, he', hsame⟩
  · rw [hc, hc']
    exact .inl ⟨_, rfl, rfl⟩
  · obtain ⟨s, rfl⟩ := Lowering.source_of_mainPart proper he
    obtain ⟨s', rfl⟩ := Lowering.source_of_mainPart proper' he'
    rw [he, he']
    have hcause : s.cause = s'.cause := by
      simp only [Recast.failure, Recast.error, Failure.source.injEq, SourceError.mk.injEq] at hsame
      exact hsame.1
    refine .inr ⟨s, s', rfl, rfl, ?_, ?_⟩
    · exact congrArg Cause.stage hcause
    · exact congrArg Cause.message hcause

section Layout

def greaterTokens : List Token :=
  [⟨.punct, 0, ascii "\x7b", 0⟩, ⟨.keyword, 1, ascii "return", 0⟩, ⟨.ident, 8, ascii "a", 0⟩,
    ⟨.punct, 9, ascii ">", 0⟩, ⟨.num, 10, ascii "1", 1⟩, ⟨.punct, 11, ascii ";", 0⟩,
    ⟨.punct, 12, ascii "\x7d", 0⟩, .eof 13]

/-- The tokens of the same comparison with `<`, further apart. -/
def lessTokens : List Token :=
  [⟨.punct, 0, ascii "\x7b", 0⟩, ⟨.keyword, 2, ascii "return", 0⟩, ⟨.num, 9, ascii "1", 1⟩,
    ⟨.punct, 11, ascii "<", 0⟩, ⟨.ident, 13, ascii "a", 0⟩, ⟨.punct, 14, ascii ";", 0⟩,
    ⟨.punct, 16, ascii "\x7d", 0⟩, .eof 17]

/-- The tree of either, with the offsets of its block, its statement and its nodes. -/
def comparisonTree (ret op num var : Int) : Program where
  topLevel := true
  funcs := [{ name := [], pos := 0, locals := [⟨ascii "a", .int, var⟩], body := some {
    pos := 0, stmts := [.ret ret (.binary op .lt (.num num 1) (.var var 0))] } }]
  req := { lt := true }

def comparisonText : Bytes :=
  ascii "(program (locals (local \"a\" int)) (block (return (binary \"<\" (integer 1) (var \"a\")))))"

theorem asm_of_ast_eq_comparison :
    (compile .ast (ascii "\x7breturn a>1;\x7d")).result = .ok (comparisonText ++ [Text.newline]) ∧
      (compile .ast (ascii "\x7b return 1 < a; \x7d")).result =
        .ok (comparisonText ++ [Text.newline]) ∧
      ((∃ out, (compile .asm (ascii "\x7breturn a>1;\x7d")).result = .ok out ∧
          (compile .asm (ascii "\x7b return 1 < a; \x7d")).result = .ok out) ∨
        ∃ e e' : SourceError,
          (compile .asm (ascii "\x7breturn a>1;\x7d")).result = .error (.source e) ∧
          (compile .asm (ascii "\x7b return 1 < a; \x7d")).result = .error (.source e') ∧
          e.diagnostic.stage = e'.diagnostic.stage ∧
          e.diagnostic.message = e'.diagnostic.message) := by
  have hsrc : Token.scan (ascii "\x7breturn a>1;\x7d") = .ok greaterTokens := by decide +kernel
  have hp : Grammar.parse greaterTokens {} = .ok (comparisonTree 1 9 10 8) :=
    Grammar.parse_of_walk rfl
  have hd : (comparisonTree 1 9 10 8).dump? = some comparisonText := by decide +kernel
  have hsrc' : Token.scan (ascii "\x7b return 1 < a; \x7d") = .ok lessTokens := by decide +kernel
  have hp' : Grammar.parse lessTokens {} = .ok (comparisonTree 2 11 9 13) :=
    Grammar.parse_of_walk rfl
  have hd' : (comparisonTree 2 11 9 13).dump? = some comparisonText := by decide +kernel
  have h : (compile .ast (ascii "\x7breturn a>1;\x7d")).result =
      .ok (comparisonText ++ [Text.newline]) := by
    unfold compile
    simp only [hsrc, hp, hd]
    rfl
  have h' : (compile .ast (ascii "\x7b return 1 < a; \x7d")).result =
      .ok (comparisonText ++ [Text.newline]) := by
    unfold compile
    simp only [hsrc', hp', hd']
    rfl
  exact ⟨h, h', asm_of_ast_eq h h'⟩

end Layout

end StackC
