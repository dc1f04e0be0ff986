import StackC.Proofs.Recast.Reading

/-! A program spelled by tokens with other offsets, or read on top of other flags, is the same one,
or is wrong in the same way. -/
namespace StackC.Grammar

variable (m : Recast)

theorem pointers_state (s : State) : (pointers (m.state s)).value = (pointers s).value ∧
    (pointers (m.state s)).state = m.state (pointers s).state := by
  unfold pointers Recast.state
  simp only [List.takeWhile_map, List.dropWhile_map, List.length_map]
  exact ⟨rfl, rfl⟩

section Stmt

variable {m} {s : State} (hs : m.Respects s.ahead)
include hs

private theorem respects_pointers : m.Respects (pointers s).state.ahead :=
  fun t ht => hs t ((List.dropWhile_suffix _).subset ht)

/-- The name behind a run of stars. -/
theorem twin_starred : Twin m (SameStep m m.token) (identifier (pointers s).state)
    (identifier (pointers (m.state s)).state) := by
  rw [(pointers_state m s).2]
  exact twin_identifier (respects_pointers hs)

private theorem twin_initialValue (name : Token) (i : Nat) :
    Twin m (SamePause m m.stmts) (initialValue name i s)
      (initialValue (m.token name) i (m.state s)) := by
  unfold initialValue
  rcases accept?_state m (ascii "=") s with ⟨ha, hb⟩ | ⟨t, s₁, h₁, h₂, ha, hb, hr⟩
  · simp only [ha, hb]
    exact .ok ⟨rfl, rfl, hs⟩
  · simp only [ha, hb]
    refine Twin.step (stable m .assign s₁ (hr hs)) ?_
    exact fun x s₂ h₃ h₄ hr₂ => .ok ⟨rfl, rfl, hr₂⟩

private theorem twin_declarator :
    Twin m (SameStep m m.stmts) (declarator s) (declarator (m.state s)) := by
  unfold declarator
  refine Twin.step (twin_starred hs) fun name s₁ h₁ h₂ hr => ?_
  have hfind : (findLocal? (m.state s₁).locals name.lit).isSome =
      (findLocal? s₁.locals name.lit).isSome := by
    rw [m.state_locals, m.findLocal?_vars]
  refine .ite hfind (.haltAt s₁ name.pos _) (.ite rfl (.haltAt s₁ name.pos _) ?_)
  have hst : { m.state s₁ with
      locals :=
        declare (m.state s₁).locals name.lit (pointers (m.state s)).value (m.pos name.pos) } =
      m.state { s₁ with locals := declare s₁.locals name.lit (pointers s).value name.pos } := by
    rw [(pointers_state m s).1, m.state_locals, ← m.vars_declare]
    rfl
  have hv : ∀ i s', i = s₁.locals.length →
      s' = m.state { s₁ with locals := declare s₁.locals name.lit (pointers s).value name.pos } →
      Twin m (SamePause m m.stmts) (initialValue name s₁.locals.length
        { s₁ with locals := declare s₁.locals name.lit (pointers s).value name.pos })
        (initialValue (m.token name) i s') := by
    rintro i s' rfl rfl
    refine twin_initialValue ?_ name _
    exact hr
  refine Twin.pause (hv _ _ (m.length_vars s₁.locals) hst) ?_
  exact fun inits s₂ h₃ h₄ hr₂ => .ok ⟨rfl, rfl, hr₂⟩

theorem twin_exprStmt : Twin m (SameStep m m.stmt) (exprStmt s) (exprStmt (m.state s)) := by
  unfold exprStmt
  refine Twin.step (stable m .assign s hs) fun x s₁ h₁ h₂ hr₁ => ?_
  refine Twin.step (f := m.expr) (twin_upTo hr₁ _) fun y s₂ h₃ h₄ hr₂ => .ok ⟨?_, rfl, hr₂⟩
  exact congrArg (Stmt.expr · (m.expr y)) (m.state_pos s)

theorem twin_parenExpr : Twin m (SameStep m m.expr) (parenExpr s) (parenExpr (m.state s)) := by
  unfold parenExpr
  refine Twin.step (twin_expect hs _) fun t s₁ h₁ h₂ hr₁ => ?_
  refine Twin.step (stable m .assign s₁ hr₁) fun x s₂ h₃ h₄ hr₂ => ?_
  exact Twin.step (f := m.expr) (twin_upTo hr₂ _) fun y s₃ h₅ h₆ hr₃ => .ok ⟨rfl, rfl, hr₃⟩

theorem twin_optionalExpr (close : Bytes) :
    Twin m (SameStep m m.expr) (optionalExpr close s) (optionalExpr close (m.state s)) := by
  unfold optionalExpr
  rcases accept?_state m close s with ⟨ha, hb⟩ | ⟨t, s₁, h₁, h₂, ha, hb, hr⟩
  · simp only [ha, hb]
    exact Twin.step (stable m .assign s hs) fun x s₁ h₁ h₂ hr₁ => twin_upTo hr₁ close
  · simp only [ha, hb]
    exact .ok ⟨rfl, rfl, hr hs⟩

theorem twin_firstStep : Twin m (SameStep m m.stmt) (firstStep s) (firstStep (m.state s)) := by
  unfold firstStep
  rcases accept?_state m (ascii ";") s with ⟨ha, hb⟩ | ⟨t, s₁, h₁, h₂, ha, hb, hr⟩
  · simp only [ha, hb]
    exact twin_exprStmt hs
  · simp only [ha, hb]
    exact .ok ⟨rfl, rfl, hr hs⟩

private theorem twin_forHead : Twin m (SameStep m fun h => (m.stmt h.1, m.expr h.2.1, m.expr h.2.2))
    (forHead s) (forHead (m.state s)) := by
  unfold forHead
  refine Twin.step (twin_expect hs _) fun t s₁ h₁ h₂ hr₁ => ?_
  refine Twin.step (twin_firstStep hr₁) fun first s₂ h₃ h₄ hr₂ => ?_
  refine Twin.step (twin_optionalExpr hr₂ _) fun test s₃ h₅ h₆ hr₃ => ?_
  refine Twin.step (twin_optionalExpr hr₃ _) ?_
  exact fun step s₄ h₇ h₈ hr₄ => .ok ⟨rfl, rfl, hr₄⟩

end Stmt

theorem twin_declarators {m : Recast} (s : State) (hs : m.Respects s.ahead) :
    Twin m (SameStep m m.stmts) (declarators s) (declarators (m.state s)) := by
  unfold declarators
  refine Twin.step (twin_declarator hs) fun inits s₁ h₁ h₂ hr₁ => ?_
  rcases accept?_state m (ascii ",") s₁ with ⟨ha, hb⟩ | ⟨t, s₂, h₃, h₄, ha, hb, hr₂⟩
  · simp only [ha, hb]
    exact twin_upTo hr₁ _
  · simp only [ha, hb]
    have shorter : s₂.ahead.length < s.ahead.length := Nat.lt_trans h₃ h₁
    refine Twin.step (twin_declarators s₂ (hr₂ hr₁)) ?_
    exact fun more s₃ h₅ h₆ hr₃ => .ok ⟨(m.stmts_append inits more).symm, rfl, hr₃⟩
termination_by s.ahead.length

/-- The form is read in the same way before the change and after it. -/
def StableStmt (m : Recast) (f : StmtForm) (s : State) : Prop :=
  m.Respects s.ahead →
    match f with
    | .stmt => Twin m (SameStep m m.stmt) (stmt s) (stmt (m.state s))
    | .otherwise => Twin m (SamePause m m.stmt) (otherwise s) (otherwise (m.state s))
    | .block => Twin m (SameStep m m.stmts) (block s) (block (m.state s))

section Stmt

variable {m} {s : State} (shorter : ∀ g s', s'.ahead.length < s.ahead.length → StableStmt m g s')
include shorter

private theorem stable_stmt : StableStmt m .stmt s := by
  intro hs
  simp only
  unfold stmt
  rcases s.ended_or_push with he | ⟨t, s, rfl⟩
  · rw [next?_ended he, next?_ended (m.state_ended he)]
    exact twin_exprStmt hs
  have hr : m.Respects s.ahead := hs.tail
  have hlt : s.ahead.length < (s.push t).ahead.length := s.length_lt_push t
  simp only [m.state_push, next?_push]
  refine .ite rfl ?_ (.ite rfl ?_ (.ite rfl ?_ (.ite rfl ?_ (.ite rfl ?_ (.ite rfl ?_ ?_)))))
  · refine Twin.step (stable m .assign s hr) fun x s₁ h₁ h₂ hr₁ => ?_
    exact Twin.step (f := m.expr) (twin_upTo hr₁ _) fun y s₂ h₃ h₄ hr₂ => .ok ⟨rfl, rfl, hr₂⟩
  · refine Twin.step (twin_parenExpr hr) fun test s₁ h₁ h₂ hr₁ => ?_
    refine Twin.step (shorter .stmt s₁ (Nat.lt_trans h₁ hlt) hr₁) fun yes s₂ h₃ h₄ hr₂ => ?_
    have hlt₂ : s₂.ahead.length < (s.push t).ahead.length := Nat.lt_trans h₃ (Nat.lt_trans h₁ hlt)
    refine Twin.pause (shorter .otherwise s₂ hlt₂ hr₂) ?_
    exact fun no s₃ h₅ h₆ hr₃ => .ok ⟨rfl, rfl, hr₃⟩
  · refine Twin.step (twin_forHead hr) fun head s₁ h₁ h₂ hr₁ => ?_
    refine Twin.step (shorter .stmt s₁ (Nat.lt_trans h₁ hlt) hr₁) ?_
    exact fun body s₂ h₃ h₄ hr₂ => .ok ⟨rfl, rfl, hr₂⟩
  · refine Twin.step (twin_parenExpr hr) fun test s₁ h₁ h₂ hr₁ => ?_
    refine Twin.step (shorter .stmt s₁ (Nat.lt_trans h₁ hlt) hr₁) ?_
    exact fun body s₂ h₃ h₄ hr₂ => .ok ⟨rfl, rfl, hr₂⟩
  · refine Twin.step (shorter .block s hlt hr) ?_
    exact fun body s₁ h₁ h₂ hr₁ => .ok ⟨rfl, rfl, hr₁⟩
  · exact .ok ⟨rfl, rfl, hr⟩
  · exact twin_exprStmt hs

private theorem stable_otherwise : StableStmt m .otherwise s := by
  intro hs
  simp only
  unfold otherwise
  rcases accept?_state m (ascii "else") s with ⟨ha, hb⟩ | ⟨t, s₁, h₁, h₂, ha, hb, hr⟩
  · simp only [ha, hb]
    exact .ok ⟨rfl, rfl, hs⟩
  · simp only [ha, hb]
    refine Twin.step (shorter .stmt s₁ h₁ (hr hs)) ?_
    exact fun x s₂ h₃ h₄ hr₂ => .ok ⟨rfl, rfl, hr₂⟩

private theorem stable_block (tighter : StableStmt m .stmt s) : StableStmt m .block s := by
  intro hs
  simp only
  unfold block
  rcases s.ended_or_push with he | ⟨t, s, rfl⟩
  · rw [next?_ended he, next?_ended (m.state_ended he)]
    exact .halt s _
  have hr : m.Respects s.ahead := hs.tail
  have hlt : s.ahead.length < (s.push t).ahead.length := s.length_lt_push t
  simp only [m.state_push, next?_push]
  refine .ite rfl ?_ (.ite rfl ?_ ?_)
  · exact .ok ⟨rfl, rfl, hr⟩
  · refine Twin.step (twin_declarators s hr) fun inits s₁ h₁ h₂ hr₁ => ?_
    refine Twin.step (shorter .block s₁ (Nat.lt_trans h₁ hlt) hr₁) ?_
    exact fun body s₂ h₃ h₄ hr₂ => .ok ⟨rfl, rfl, hr₂⟩
  · refine Twin.step (tighter hs) fun x s₁ h₁ h₂ hr₁ => ?_
    refine Twin.step (shorter .block s₁ h₁ hr₁) ?_
    exact fun body s₂ h₃ h₄ hr₂ => .ok ⟨rfl, rfl, hr₂⟩

end Stmt

theorem stableStmt (f : StmtForm) (s : State) : StableStmt m f s := by
  refine ranked_induction StmtForm.rank (fun f s shorter tighter => ?_) f s
  cases f with
  | stmt => exact stable_stmt shorter
  | otherwise => exact stable_otherwise shorter
  | block => exact stable_block shorter (tighter .stmt (by decide))

/-! Programs -/

theorem twin_function {m : Recast} {s : State} (hs : m.Respects s.ahead) :
    Twin m (SameStep m m.function) (function s) (function (m.state s)) := by
  unfold function
  rcases accept?_state m (ascii "int") s with ⟨ha, hb⟩ | ⟨t, s₁, h₁, h₂, ha, hb, hr⟩
  · simp only [ha, hb]
    exact .halt s _
  simp only [ha, hb]
  refine Twin.step (twin_starred (hr hs)) fun name s₂ h₃ h₄ hr₂ => ?_
  refine Twin.step (twin_expect hr₂ _) fun open_ s₃ h₅ h₆ hr₃ => ?_
  refine Twin.step (twin_expect hr₃ _) fun close s₄ h₇ h₈ hr₄ => ?_
  refine Twin.step (twin_expect hr₄ _) fun brace s₅ h₉ h₁₀ hr₅ => ?_
  refine Twin.step (stableStmt m .block { s₅ with locals := [] } hr₅) ?_
  refine fun stmts s₆ h₁₁ h₁₂ hr₆ => .ok ⟨?_, rfl, hr₆⟩
  exact congrArg (Function.mk name.lit · (m.pos name.pos) (m.vars s₆.locals)
    (some (m.body ⟨brace.pos, stmts⟩))) (pointers_state m s₁).1

theorem twin_functions {m : Recast} (known : List Function) (s : State) (hs : m.Respects s.ahead) :
    Twin m (fun p q => q = m.program p) (functions known s)
      (functions (known.map m.function) (m.state s)) := by
  unfold functions
  refine .ite List.isEmpty_map (.ok rfl) ?_
  refine Twin.step (twin_function hs) fun f s₁ h₁ h₂ hr => ?_
  refine .ite (m.findFunction?_map known f.name) (.haltAt s₁ f.pos _) ?_
  have hk : known.map m.function ++ [m.function f] = (known ++ [f]).map m.function := by
    rw [List.map_append, List.map_singleton]
  simp only [hk]
  exact twin_functions (known ++ [f]) s₁ hr
termination_by s.ahead.length

theorem twin_topLevel {m : Recast} (brace : Token) {s : State} (hs : m.Respects s.ahead) :
    Twin m (fun p q => q = m.program p) (topLevel brace s)
      (topLevel (m.token brace) (m.state s)) := by
  unfold topLevel
  refine Twin.step (stableStmt m .block s hs) fun stmts s₁ h₁ h₂ hr => ?_
  exact .ite List.isEmpty_map (.ok rfl) (.halt s₁ _)

/-- Tokens at other offsets, read on top of other flags, spell the same program or are wrong in the
same way. -/
theorem twin_parse {m : Recast} {toks : List Token} (req : Requirements) (hs : m.Respects toks)
    (hstop : endOffset (toks.map m.token) = m.pos (endOffset toks)) :
    Twin m (fun p q => q = m.program p) (parse toks req)
      (parse (toks.map m.token) (m.req req)) := by
  have hb : Token.beforeEnd (toks.map m.token) = (Token.beforeEnd toks).map m.token :=
    List.takeWhile_map
  have hr : m.Respects (Token.beforeEnd toks) :=
    fun t ht => hs t ((List.takeWhile_prefix _).subset ht)
  unfold parse
  rw [hb, hstop]
  cases ha : Token.beforeEnd toks with
  | nil => exact twin_functions [] { ahead := [], stop := endOffset toks, req } (ha ▸ hr)
  | cons t rest =>
    rw [ha] at hr
    refine .ite rfl ?_ ?_
    · exact twin_topLevel t (s := { ahead := rest, stop := endOffset toks, req }) hr.tail
    · exact twin_functions [] { ahead := t :: rest, stop := endOffset toks, req } hr

end StackC.Grammar
