import StackC.Proofs.Derivation.BlockedExpr

/-! Where the parse of statements and programs stops with a message about the grammar, the walk
along the grammar is stuck. -/
namespace StackC.Derivation
open Grammar

section Declarations

variable {s : State} {halt : Halt}

theorem walks_pointers (s : State) :
    Walks (.many (.lit "*")) s.tokens (pointers s).state.tokens := by
  obtain ⟨stars, hstars, hs, -⟩ := exists_pushAll s
  have hn : (pointers s).state.starts (ascii "*") = false := by
    have hd := List.head?_dropWhile_not (fun t : Token => t.is (ascii "*")) s.ahead
    simp only [pointers, State.starts]
    cases h : (s.ahead.dropWhile fun t => t.is (ascii "*")).head? with
    | none => rfl
    | some t => simpa [h] using hd
  conv_lhs => rw [hs]
  exact walks_stars hstars hn

private theorem blocked_declarator (h : declarator s = .error halt) :
    Blocked (.rule .declarator) s.tokens halt.error := by
  refine .rule (.rest (walks_pointers s) ?_)
  rw [declarator] at h
  rcases Outcome.bind_eq_error.mp h with h | ⟨⟨name, s₁, h₁⟩, hi, h⟩
  · exact (blocked_identifier h).first
  obtain ⟨hs, hk⟩ := identifier_eq_ok hi
  simp only at h
  split at h
  · exact blocked_of_haltAt h rfl
  split at h
  · exact blocked_of_haltAt h rfl
  rcases Outcome.bind_eq_error.mp h with h | ⟨p, -, h⟩
  · rw [hs]
    refine .rest (.token rfl (beq_iff_eq.mpr hk)) ?_
    rw [initialValue] at h
    split at h
    · cases h
    · next t s₂ h₂ hacc =>
      obtain ⟨he, ht⟩ := accept?_eq_some hacc
      obtain ⟨s₃, rfl, rfl⟩ := State.eq_push_of_locals he
      rcases Outcome.bind_eq_error.mp h with h | ⟨p, -, h⟩
      · exact (Blocked.rest (.lit ht) (blocked_assign h)).imp (.left (opens_of_is ht))
      · cases h
  · cases h

theorem blocked_declarators (s : State) {halt : Halt} (h : declarators s = .error halt) :
    Blocked (.seqs [.rule .declarator, .many (.seqs [.lit ",", .rule .declarator]), .lit ";"])
      s.tokens halt.error := by
  rw [declarators] at h
  rcases Outcome.bind_eq_error.mp h with h | ⟨⟨inits, s₁, h₁⟩, hd, h⟩
  · exact (blocked_declarator h).first
  have hw := walks_of_readsDeclarator (readsDeclarator_of_ok hd)
  simp only at h hw
  split at h
  case h_1 t s₂ h₂ hacc =>
    obtain ⟨rfl, hc⟩ := accept?_eq_some hacc
    rcases Outcome.bind_eq_error.mp h with h | ⟨p, -, h⟩
    · have shorter : s₂.ahead.length < s.ahead.length := Nat.lt_trans h₂ h₁
      refine (blocked_declarators s₂ h).imp fun hs => ?_
      rcases hs.first_or_rest with second | ⟨v, second, others⟩
      · exact .rest hw (.first (.item (opens_of_is hc) (.rest (.lit hc) second)))
      · exact .rest hw (.many_seq_later (opens_of_is hc) (.seq (.lit hc) second) others)
    · cases h
  case h_2 hacc =>
    have hc := accept?_eq_none.mp hacc
    exact .rest hw (.rest (.none (closed_of_starts hc)) (blocked_upTo h))
termination_by s.ahead.length

end Declarations

section Statements

variable {s : State} {halt : Halt} {c : Phrase}

theorem blocked_exprLit {text : String} (h : (do (← assign s).upTo (ascii text)) = .error halt) :
    Blocked (.seq (.rule .expr) (.lit text)) s.tokens halt.error :=
  blocked_exprUpTo (blocks .assign s) h

/-- An expression in parentheses, and what follows it. -/
theorem blocked_parenExpr (h : parenExpr s = .error halt) :
    Blocked (.seq (.lit "(") (.seq (.rule .expr) (.seq (.lit ")") c))) s.tokens halt.error := by
  rw [parenExpr] at h
  rcases Outcome.bind_eq_error.mp h with h | ⟨⟨t, s₁, h₁⟩, ho, h⟩
  · exact (blocked_expect h).first
  obtain ⟨rfl, ht⟩ := expect_eq_ok ho
  simp only at h
  rw [← bind_assoc] at h
  rcases Outcome.bind_eq_error.mp h with h | ⟨p, -, h⟩
  · exact .rest (.lit ht) ((blocked_exprLit h).imp .append)
  · cases h

theorem blocked_optionalExpr {close : String} (h : optionalExpr (ascii close) s = .error halt) :
    Blocked (.seq (.opt (.rule .expr)) (.lit close)) s.tokens halt.error := by
  rw [optionalExpr] at h
  split at h
  · cases h
  · next hacc =>
    have hc := opens_lit.trans (accept?_eq_none.mp hacc)
    exact (blocked_exprLit h).imp fun hs => hs.opt_of_seq rfl rfl hc

theorem blocked_exprStmt (h : exprStmt s = .error halt) (hn : s.starts (ascii ";") = false) :
    Blocked (.rule .exprStmt) s.tokens halt.error := by
  rw [exprStmt, ← bind_assoc] at h
  rcases Outcome.bind_eq_error.mp h with h | ⟨p, -, h⟩
  · exact .rule ((blocked_exprLit h).imp fun hs => hs.opt_of_seq rfl rfl (opens_lit.trans hn))
  · cases h

private theorem blocked_firstStep (h : firstStep s = .error halt) :
    Blocked (.rule .exprStmt) s.tokens halt.error := by
  rw [firstStep] at h
  split at h
  · cases h
  · next hacc => exact blocked_exprStmt h (accept?_eq_none.mp hacc)

/-- The head of a loop, and what follows it. -/
theorem blocked_forHead (h : forHead s = .error halt) :
    Blocked (.seq (.lit "(") (.seq (.rule .exprStmt) (.seq (.opt (.rule .expr)) (.seq (.lit ";")
      (.seq (.opt (.rule .expr)) (.seq (.lit ")") c)))))) s.tokens halt.error := by
  rw [forHead] at h
  rcases Outcome.bind_eq_error.mp h with h | ⟨⟨t, s₁, h₁⟩, ho, h⟩
  · exact (blocked_expect h).first
  obtain ⟨rfl, ht⟩ := expect_eq_ok ho
  refine .rest (.lit ht) ?_
  rcases Outcome.bind_eq_error.mp h with h | ⟨⟨first, s₂, h₂⟩, hf, h⟩
  · exact (blocked_firstStep h).first
  refine .rest (walks_of_readsFirst (readsFirst_of_ok hf)) ?_
  rcases Outcome.bind_eq_error.mp h with h | ⟨⟨test, s₃, h₃⟩, hc, h⟩
  · exact (blocked_optionalExpr h).imp .append
  obtain ⟨v, ht, hs⟩ := (walks_of_readsOptional (by decide) (readsOptional_of_ok hc)).exists_seq
  refine .rest ht (.rest hs ?_)
  rcases Outcome.bind_eq_error.mp h with h | ⟨p, -, h⟩
  · exact (blocked_optionalExpr h).imp .append
  · cases h

/-- Where the parser of a form stops, the walk along its phrase is stuck. -/
def BlocksStmt (f : StmtForm) (s : State) : Prop :=
  ∀ halt, f.run s = .error halt → Blocked (stmtPhrase f) s.tokens halt.error

theorem walks_of_stmt {p : Progress s Stmt} (h : stmt s = .ok p) :
    Walks (.rule .stmt) s.tokens p.state.tokens :=
  walks_of_readsStmt (StmtForm.sound .stmt s _ _ (by rw [StmtForm.run, h]; rfl))

theorem Blocked.stmt {a : Phrase} {v : List Token} {e : SourceError}
    (hp : Rule.stmt.factored.pick v = a) (h : Blocked a v e) : Blocked (.rule .stmt) v e :=
  .rule (h.imp fun hs => .of_pick (hp ▸ hs))

section Forms

variable (shorter : ∀ g s', s'.ahead.length < s.ahead.length → BlocksStmt g s')
include shorter

private theorem blocks_stmt : BlocksStmt .stmt s := by
  intro halt h
  rw [StmtForm.run, Outcome.map_eq_error] at h
  have inner {s₁ : State} (h₁ : s₁.ahead.length < s.ahead.length) (hx : stmt s₁ = .error halt) :
      Blocked (.rule .stmt) s₁.tokens halt.error :=
    shorter .stmt s₁ h₁ halt (by rw [StmtForm.run, hx]; rfl)
  rcases s.ended_or_push with he | ⟨t, s, rfl⟩
  · rw [Grammar.stmt, next?_ended he] at h
    have hn (lit : Bytes) : s.starts lit = false := by simp [State.starts, he]
    exact .stmt (pick_exprStmt fun lit _ _ => hn lit) (blocked_exprStmt h (hn _))
  rw [Grammar.stmt] at h
  simp only [next?_push] at h
  -- In each branch the walk passes the parts that were parsed and is stuck in the first other one.
  split at h
  case isTrue hret =>
    rw [← bind_assoc] at h
    rcases Outcome.bind_eq_error.mp h with h | ⟨p, -, h⟩
    · exact .stmt (pick_return hret) (.rest (.lit hret) (blocked_exprLit h))
    · cases h
  split at h
  case isTrue hif =>
    refine .stmt (pick_if hif) (.rest (.lit hif) ?_)
    rcases Outcome.bind_eq_error.mp h with h | ⟨⟨x, s₁, h₁⟩, hx, h⟩
    · exact blocked_parenExpr h
    obtain ⟨t₁, t₂, s₀, rfl, ht₁, hr, ht₂⟩ := reads_parenExpr hx
    refine .rest (.lit ht₁) (.rest (.rule (walks_of_reads hr)) (.rest (.lit ht₂) ?_))
    rcases Outcome.bind_eq_error.mp h with h | ⟨⟨yes, s₂, h₂⟩, hy, h⟩
    · exact (inner (by simp at h₁ ⊢; omega) h).first
    refine .rest (walks_of_stmt hy) ?_
    rcases Outcome.bind_eq_error.mp h with h | ⟨p, -, h⟩
    · exact shorter .otherwise s₂ (by simp at h₁ h₂ ⊢; omega) halt (by rw [StmtForm.run, h]; rfl)
    · cases h
  split at h
  case isTrue hfor =>
    refine .stmt (pick_for hfor) (.rest (.lit hfor) ?_)
    rcases Outcome.bind_eq_error.mp h with h | ⟨⟨⟨first, test, step⟩, s₁, h₁⟩, hx, h⟩
    · exact blocked_forHead h
    obtain ⟨t₁, s₂, s₃, s₄, rfl, ht₁, hf, hc, hi⟩ := reads_forHead hx
    obtain ⟨v₁, hc, hs⟩ := (walks_of_readsOptional (by decide) hc).exists_seq
    obtain ⟨v₂, hi, hp⟩ := (walks_of_readsOptional (by decide) hi).exists_seq
    refine .rest (.lit ht₁) (.rest (walks_of_readsFirst hf)
      (.rest hc (.rest hs (.rest hi (.rest hp ?_)))))
    rcases Outcome.bind_eq_error.mp h with h | ⟨p, -, h⟩
    · exact inner (by simp at h₁ ⊢; omega) h
    · cases h
  split at h
  case isTrue hwhile =>
    refine .stmt (pick_while hwhile) (.rest (.lit hwhile) ?_)
    rcases Outcome.bind_eq_error.mp h with h | ⟨⟨x, s₁, h₁⟩, hx, h⟩
    · exact blocked_parenExpr h
    obtain ⟨t₁, t₂, s₀, rfl, ht₁, hr, ht₂⟩ := reads_parenExpr hx
    refine .rest (.lit ht₁) (.rest (.rule (walks_of_reads hr)) (.rest (.lit ht₂) ?_))
    rcases Outcome.bind_eq_error.mp h with h | ⟨p, -, h⟩
    · exact inner (by simp at h₁ ⊢; omega) h
    · cases h
  split at h
  case isTrue hopen =>
    refine .stmt (pick_brace hopen) (.rest (.lit hopen) ?_)
    rcases Outcome.bind_eq_error.mp h with h | ⟨p, -, h⟩
    · exact shorter .block s (by simp) halt (by rw [StmtForm.run, h]; rfl)
    · cases h
  split at h
  case isTrue hsemi => cases h
  case isFalse hsemi =>
    refine .stmt (pick_exprStmt (s := s.push t) ?_) (blocked_exprStmt h (by simpa using hsemi))
    simp_all [stmtStarts]

private theorem blocks_otherwise : BlocksStmt .otherwise s := by
  intro halt h
  rw [StmtForm.run, Outcome.map_eq_error, otherwise] at h
  split at h
  case h_1 t s₁ h₁ hacc =>
    obtain ⟨rfl, ht⟩ := accept?_eq_some hacc
    rcases Outcome.bind_eq_error.mp h with h | ⟨p, -, h⟩
    · have hb := shorter .stmt s₁ h₁ halt (by rw [StmtForm.run, h]; rfl)
      exact (Blocked.rest (.lit ht) hb).imp (.left (opens_of_is ht))
    · cases h
  case h_2 hacc => cases h

private theorem blocks_block (tighter : BlocksStmt .stmt s) : BlocksStmt .block s := by
  intro halt h
  rw [StmtForm.run, Outcome.map_eq_error] at h
  rcases s.ended_or_push with he | ⟨t, s, rfl⟩
  · rw [block, next?_ended he] at h
    refine blocked_of_halt h ?_
    rw [State.tokens, he]
    exact .rule (.rest (.none rfl) (.token rfl rfl))
  rw [block] at h
  simp only [next?_push] at h
  split at h
  case isTrue hclose => cases h
  next hclose =>
  have hend : (Phrase.lit "\x7d").opens (s.push t).tokens = false := Bool.eq_false_iff.mpr hclose
  have later {s₁ : State} (h₁ : s₁.ahead.length < (s.push t).ahead.length)
      (hw : Walks (.alt (.rule .declaration) (.rule .stmt)) (s.push t).tokens s₁.tokens)
      (hx : block s₁ = .error halt) : Blocked (.rule .block) (s.push t).tokens halt.error := by
    have hb := shorter .block s₁ h₁ halt (by rw [StmtForm.run, hx]; rfl)
    exact .rule (hb.imp fun hs => .many_seq_later (hw.opens rfl) hw hs.body)
  split at h
  case isTrue hint =>
    have ho : (Phrase.rule .declaration).opens (s.push t).tokens := hint
    rcases Outcome.bind_eq_error.mp h with h | ⟨⟨inits, s₁, h₁⟩, hd, h⟩
    · have hb : Blocked (.rule .declaration) (s.push t).tokens halt.error :=
        .rule (.rest (.lit hint) (blocked_declarators s h))
      exact .rule (hb.imp fun hs => (Stuck.left ho hs).many_seq rfl hend)
    · have hw := walks_of_readsDeclarators (readsDeclarators_of_ok s hd)
      rcases Outcome.bind_eq_error.mp h with h | ⟨p, -, h⟩
      · exact later (by simp; omega) (.left ho (.rule (.seq (.lit hint) hw))) h
      · cases h
  case isFalse hint =>
    have hc : (Phrase.rule .declaration).opens (s.push t).tokens = false :=
      Bool.eq_false_iff.mpr hint
    rcases Outcome.bind_eq_error.mp h with h | ⟨⟨x, s₁, h₁⟩, hx, h⟩
    · have hb := tighter halt (by rw [StmtForm.run, h]; rfl)
      exact .rule (hb.imp fun hs => (Stuck.right hc hs).many_seq rfl hend)
    · rcases Outcome.bind_eq_error.mp h with h | ⟨p, -, h⟩
      · exact later h₁ (.right hc (walks_of_stmt hx)) h
      · cases h

end Forms

/-- Where a statement cannot be parsed for its syntax, the walk is stuck. -/
theorem blocksStmt (f : StmtForm) (s : State) : BlocksStmt f s := by
  refine ranked_induction StmtForm.rank (fun f s shorter tighter => ?_) f s
  cases f with
  | stmt => exact blocks_stmt shorter
  | otherwise => exact blocks_otherwise shorter
  | block => exact blocks_block shorter (tighter .stmt (by decide))

theorem blocked_block (h : block s = .error halt) : Blocked (.rule .block) s.tokens halt.error :=
  blocksStmt .block s halt (by rw [StmtForm.run, h]; rfl)

end Statements

section Programs

variable {s : State} {halt : Halt}

private theorem blocked_function (h : function s = .error halt) :
    Blocked (.rule .function) s.tokens halt.error := by
  rw [function] at h
  split at h
  · next hacc =>
    have hc := opens_lit.trans (accept?_eq_none.mp hacc)
    exact blocked_of_halt h (.rule (.first (.token rfl hc)))
  · next t s₁ h₁ hacc =>
    obtain ⟨rfl, ht⟩ := accept?_eq_some hacc
    refine .rule (.rest (.lit ht) (.rest (walks_pointers s₁) ?_))
    rcases Outcome.bind_eq_error.mp h with h | ⟨⟨name, s₂, h₂⟩, hn, h⟩
    · exact (blocked_identifier h).first
    obtain ⟨hs₂, hk⟩ := identifier_eq_ok hn
    rw [hs₂]
    refine .rest (.token rfl (beq_iff_eq.mpr hk)) ?_
    rcases Outcome.bind_eq_error.mp h with h | ⟨⟨opening, s₃, h₃⟩, ho, h⟩
    · exact (blocked_expect h).first
    obtain ⟨rfl, opens⟩ := expect_eq_ok ho
    refine .rest (.lit opens) ?_
    rcases Outcome.bind_eq_error.mp h with h | ⟨⟨closing, s₄, h₄⟩, hc, h⟩
    · exact (blocked_expect h).first
    obtain ⟨rfl, closes⟩ := expect_eq_ok hc
    refine .rest (.lit closes) ?_
    rcases Outcome.bind_eq_error.mp h with h | ⟨⟨brace, s₅, h₅⟩, hb, h⟩
    · exact (blocked_expect h).first
    obtain ⟨rfl, begins⟩ := expect_eq_ok hb
    refine .rest (.lit begins) ?_
    rcases Outcome.bind_eq_error.mp h with h | ⟨p, -, h⟩
    · exact blocked_block (s := { s₅ with locals := [] }) h
    · cases h

/-- Where tokens are left, the end mark is not next. -/
theorem closed_endMark (hk : ∀ t ∈ s.ahead, t.kind ≠ .eof) (hs : s.ahead ≠ []) :
    Phrase.endMark.opens s.tokens = false := by
  rcases s.ended_or_push with he | ⟨t, s, rfl⟩
  · exact absurd he hs
  · exact beq_eq_false_iff_ne.mpr (hk t (by simp))

theorem blocked_functions (known : List Function) (s : State) {halt : Halt}
    (hk : ∀ t ∈ s.ahead, t.kind ≠ .eof) (h : functions known s = .error halt) :
    Blocked (.rule .functions) s.tokens halt.error := by
  rw [functions] at h
  split at h
  · cases h
  next he =>
  have hend := closed_endMark hk (by simpa using he)
  rcases Outcome.bind_eq_error.mp h with h | ⟨⟨f, s₁, h₁⟩, hf, h⟩
  · exact .rule ((blocked_function h).imp fun hs => hs.many_seq rfl hend)
  simp only at h
  split at h
  · exact blocked_of_haltAt h rfl
  · have hr := readsFunction_of_ok hf
    obtain ⟨w, o, hw, -⟩ := derives_of_readsFunction hr
    rw [hw, List.forall_mem_append] at hk
    refine .rule ((blocked_functions (known ++ [f]) s₁ hk.2 h).imp fun hs => ?_)
    exact .many_seq_later (opens_function hr) (walks_of_readsFunction hr) hs.body
termination_by s.ahead.length

private theorem blocked_topLevel {t : Token} (ht : t.is (ascii "\x7b"))
    (hk : ∀ t ∈ s.ahead, t.kind ≠ .eof) (h : topLevel t s = .error halt) :
    Blocked (.rule .topLevel) (s.push t).tokens halt.error := by
  refine .rule (.rest (.lit ht) ?_)
  rw [topLevel] at h
  rcases Outcome.bind_eq_error.mp h with h | ⟨⟨stmts, s₁, h₁⟩, hb, h⟩
  · exact (blocked_block h).first
  have inner := StmtForm.sound .block s _ _ (by rw [StmtForm.run, hb]; rfl)
  obtain ⟨w, o, hw, -⟩ := spans_of_readsStmt inner
  rw [hw, List.forall_mem_append] at hk
  simp only at h
  split at h
  · cases h
  · next he =>
    exact .rest (walks_of_readsStmt inner)
      (blocked_of_halt h (.token rfl (closed_endMark hk.2 (by simpa using he))))

/-- Where a program cannot be parsed for its syntax, the walk along the grammar is stuck. -/
theorem blocked_parse {toks : List Token} {req : Requirements} (h : parse toks req = .error halt) :
    Blocked (.rule (startRule (initial toks req).tokens)) (initial toks req).tokens halt.error := by
  have hk : ∀ t ∈ (initial toks req).ahead, t.kind ≠ .eof := by
    intro t ht
    simpa using List.all_eq_true.mp List.all_takeWhile t ht
  cases hb : (initial toks req).starts (ascii "\x7b") with
  | false =>
    rw [parse_eq_functions hb] at h
    have hc : (Phrase.lit "\x7b").opens (initial toks req).tokens = false := opens_lit.trans hb
    have hr : startRule (initial toks req).tokens = .functions := if_neg (Bool.eq_false_iff.mp hc)
    rw [hr]
    exact blocked_functions [] _ hk h
  | true =>
    rcases (initial toks req).ended_or_push with he | ⟨t, s, hs⟩
    · simp [State.starts, he] at hb
    · rw [hs, State.starts_push] at hb
      rw [parse_eq_topLevel hs hb] at h
      rw [hs] at hk ⊢
      have hr : startRule (s.push t).tokens = .topLevel := if_pos hb
      rw [hr]
      exact blocked_topLevel hb (fun t' ht' => hk t' (List.mem_cons_of_mem t ht')) h

end Programs

end StackC.Derivation
