import StackC.Proofs.Reading.Expr

/-! Reading declarations and statements as a relation, and its agreement with the parser. -/
namespace StackC.Grammar

/-- A declarator, with the assignment of its initial value if it has one. -/
inductive ReadsDeclarator : State → List Stmt → State → Prop
  | bare {s : State} {stars : List Token} {name : Token} (areStars : ∀ t ∈ stars, t.is (ascii "*"))
      (isName : name.kind = .ident) (isNew : findLocal? s.locals name.lit = none)
      (notScratch : name.lit ≠ scratchName) (noValue : s.starts (ascii "=") = false) :
      ReadsDeclarator ((s.push name).pushAll stars) []
        { s with locals := declare s.locals name.lit (.stars stars.length) name.pos }
  | init {s s₁ : State} {stars : List Token} {name t : Token} {x : Expr}
      (areStars : ∀ t ∈ stars, t.is (ascii "*")) (isName : name.kind = .ident)
      (isNew : findLocal? s.locals name.lit = none) (notScratch : name.lit ≠ scratchName)
      (eq : t.is (ascii "="))
      (value : Reads .assign
        { s with locals := declare s.locals name.lit (.stars stars.length) name.pos } [x] s₁) :
      ReadsDeclarator (((s.push t).push name).pushAll stars)
        [.expr name.pos (.assign t.pos (.var name.pos s.locals.length) x)] s₁

inductive ReadsDeclarators : State → List Stmt → State → Prop
  | last {s s₁ : State} {t : Token} {inits : List Stmt}
      (only : ReadsDeclarator s inits (s₁.push t)) (ends : t.is (ascii ";")) :
      ReadsDeclarators s inits s₁
  | more {s s₁ s₂ : State} {t : Token} {inits others : List Stmt}
      (first : ReadsDeclarator s inits (s₁.push t)) (comma : t.is (ascii ","))
      (rest : ReadsDeclarators s₁ others s₂) :
      ReadsDeclarators s (inits ++ others) s₂

/-- An expression that may be left out, and the token behind it. -/
inductive ReadsOptional (close : Bytes) : State → Expr → State → Prop
  | absent {s : State} {t : Token} (closes : t.is close) :
      ReadsOptional close (s.push t) .absent s
  | present {s s₁ : State} {t : Token} {x : Expr} (notYet : s.starts close = false)
      (inner : Reads .assign s [x] (s₁.push t)) (closes : t.is close) :
      ReadsOptional close s x s₁

inductive ReadsFirst : State → Stmt → State → Prop
  | absent {s : State} {t : Token} (ends : t.is (ascii ";")) : ReadsFirst (s.push t) .absent s
  | present {s s₁ : State} {t : Token} {x : Expr} (notYet : s.starts (ascii ";") = false)
      (inner : Reads .assign s [x] (s₁.push t)) (ends : t.is (ascii ";")) :
      ReadsFirst s (.expr s.pos x) s₁

/-- What may be read inside a function body. -/
inductive StmtForm
  | stmt
  | otherwise
  | block

/-- The tokens that a statement other than an expression begins with. -/
def stmtStarts : List Bytes :=
  [ascii "return", ascii "if", ascii "for", ascii "while", ascii "\x7b", ascii ";"]

/-- From one state the form is read as these statements, up to the other state. Only a block may
have other than one. -/
inductive ReadsStmt : StmtForm → State → List Stmt → State → Prop
  | ret {s s₁ : State} {t t₁ : Token} {x : Expr} (isReturn : t.is (ascii "return"))
      (value : Reads .assign s [x] (s₁.push t₁)) (ends : t₁.is (ascii ";")) :
      ReadsStmt .stmt (s.push t) [.ret t.pos x] s₁
  | cond {s s₁ s₂ s₃ : State} {t t₁ t₂ : Token} {x : Expr} {yes no : Stmt}
      (isIf : t.is (ascii "if")) (opens : t₁.is (ascii "("))
      (test : Reads .assign s [x] (s₁.push t₂)) (closes : t₂.is (ascii ")"))
      (first : ReadsStmt .stmt s₁ [yes] s₂) (second : ReadsStmt .otherwise s₂ [no] s₃) :
      ReadsStmt .stmt ((s.push t₁).push t) [.cond t.pos x yes no] s₃
  | loop {s s₁ s₂ s₃ s₄ : State} {t t₁ : Token} {first body : Stmt} {test step : Expr}
      (isFor : t.is (ascii "for")) (opens : t₁.is (ascii "(")) (init : ReadsFirst s first s₁)
      (cond : ReadsOptional (ascii ";") s₁ test s₂) (inc : ReadsOptional (ascii ")") s₂ step s₃)
      (inner : ReadsStmt .stmt s₃ [body] s₄) :
      ReadsStmt .stmt ((s.push t₁).push t) [.loop t.pos first test step body] s₄
  | whileLoop {s s₁ s₂ : State} {t t₁ t₂ : Token} {x : Expr} {body : Stmt}
      (isWhile : t.is (ascii "while")) (opens : t₁.is (ascii "("))
      (test : Reads .assign s [x] (s₁.push t₂)) (closes : t₂.is (ascii ")"))
      (inner : ReadsStmt .stmt s₁ [body] s₂) :
      ReadsStmt .stmt ((s.push t₁).push t) [.loop t.pos .absent x .absent body] s₂
  | nested {s s₁ : State} {t : Token} {body : List Stmt} (opens : t.is (ascii "\x7b"))
      (inner : ReadsStmt .block s body s₁) :
      ReadsStmt .stmt (s.push t) [.block t.pos body] s₁
  | empty {s : State} {t : Token} (ends : t.is (ascii ";")) :
      ReadsStmt .stmt (s.push t) [.block t.pos []] s
  | expr {s s₁ : State} {t : Token} {x : Expr} (plain : ∀ lit ∈ stmtStarts, s.starts lit = false)
      (inner : Reads .assign s [x] (s₁.push t)) (ends : t.is (ascii ";")) :
      ReadsStmt .stmt s [.expr s.pos x] s₁
  | noElse {s : State} (noElse : s.starts (ascii "else") = false) :
      ReadsStmt .otherwise s [.absent] s
  | orElse {s s₁ : State} {t : Token} {x : Stmt} (isElse : t.is (ascii "else"))
      (inner : ReadsStmt .stmt s [x] s₁) :
      ReadsStmt .otherwise (s.push t) [x] s₁
  | endBlock {s : State} {t : Token} (closes : t.is (ascii "\x7d")) :
      ReadsStmt .block (s.push t) [] s
  | declaration {s s₁ s₂ : State} {t : Token} {inits body : List Stmt} (isInt : t.is (ascii "int"))
      (first : ReadsDeclarators s inits s₁) (rest : ReadsStmt .block s₁ body s₂) :
      ReadsStmt .block (s.push t) (.block t.pos inits :: body) s₂
  | item {s s₁ s₂ : State} {x : Stmt} {body : List Stmt}
      (notEnd : s.starts (ascii "\x7d") = false) (noInt : s.starts (ascii "int") = false)
      (first : ReadsStmt .stmt s [x] s₁) (rest : ReadsStmt .block s₁ body s₂) :
      ReadsStmt .block s (x :: body) s₂

section Sound

variable {s : State}

theorem reads_of_assign {p : Progress s Expr} (h : assign s = .ok p) :
    Reads .assign s [p.value] p.state :=
  Form.sound .assign s _ _ (by rw [Form.run, h]; rfl)

/-- An expression and the token that has to follow it. -/
theorem reads_upTo {close : Bytes} {p : Progress s Expr}
    (h : (do (← assign s).upTo close) = .ok p) :
    ∃ t, Reads .assign s [p.value] (p.state.push t) ∧ t.is close := by
  obtain ⟨a, ha, h⟩ := Outcome.bind_eq_ok.mp h
  obtain ⟨t, hs, ht, hv⟩ := upTo_eq_ok h
  refine ⟨t, ?_, ht⟩
  rw [← hs, hv]
  exact reads_of_assign ha

private theorem initialValue_cases {name : Token} {i : Nat} {p : Pause s (List Stmt)}
    (h : initialValue name i s = .ok p) :
    (s.starts (ascii "=") = false ∧ p.value = [] ∧ p.state = s) ∨
      ∃ t x s₁, s = s₁.push t ∧ t.is (ascii "=") ∧ Reads .assign s₁ [x] p.state ∧
        p.value = [.expr name.pos (.assign t.pos (.var name.pos i) x)] := by
  rw [initialValue] at h
  split at h
  case h_1 hacc =>
    cases h
    exact .inl ⟨accept?_eq_none.mp hacc, rfl, rfl⟩
  case h_2 t s₁ h₁ hacc =>
    obtain ⟨⟨x, s₂, h₂⟩, ha, h⟩ := Outcome.bind_eq_ok.mp h
    cases h
    obtain ⟨hs, ht⟩ := accept?_eq_some hacc
    exact .inr ⟨t, x, s₁, hs, ht, reads_of_assign ha, rfl⟩

theorem readsDeclarator_of_ok {p : Progress s (List Stmt)} (h : declarator s = .ok p) :
    ReadsDeclarator s p.value p.state := by
  obtain ⟨stars, hstars, hs, hty⟩ := exists_pushAll s
  rw [declarator] at h
  obtain ⟨⟨name, s₁, h₁⟩, hi, h⟩ := Outcome.bind_eq_ok.mp h
  obtain ⟨hs₁, hk⟩ := identifier_eq_ok hi
  rw [hs₁] at hs
  simp only at h
  split at h
  · cases h
  split at h
  · cases h
  next hnew hscratch =>
  obtain ⟨⟨inits, s₂, h₂⟩, hv, h⟩ := Outcome.bind_eq_ok.mp h
  cases h
  rw [Option.not_isSome_iff_eq_none] at hnew
  rw [beq_iff_eq] at hscratch
  change ReadsDeclarator s inits s₂
  rw [hs]
  rw [hty] at hv
  obtain ⟨hn, hi, hs₂⟩ | ⟨t, x, s₃, he, ht, hx, hi⟩ := initialValue_cases hv
  · simp only at hi hs₂
    subst hi hs₂
    exact .bare hstars hk hnew hscratch hn
  · simp only at hi hx
    subst hi
    obtain ⟨s₄, rfl, rfl⟩ := State.eq_push_of_locals he
    exact .init hstars hk hnew hscratch ht hx

theorem readsDeclarators_of_ok (s : State) {p : Progress s (List Stmt)}
    (h : declarators s = .ok p) : ReadsDeclarators s p.value p.state := by
  rw [declarators] at h
  obtain ⟨⟨inits, s₁, h₁⟩, ha, h⟩ := Outcome.bind_eq_ok.mp h
  have hd := readsDeclarator_of_ok ha
  simp only at h hd
  split at h
  case h_1 t s₂ h₂ hacc =>
    obtain ⟨⟨others, s₃, h₃⟩, hb, h⟩ := Outcome.bind_eq_ok.mp h
    cases h
    obtain ⟨hs, hc⟩ := accept?_eq_some hacc
    rw [hs] at hd
    have shorter : s₂.ahead.length < s.ahead.length := Nat.lt_trans h₂ h₁
    exact .more hd hc (readsDeclarators_of_ok s₂ hb)
  case h_2 hacc =>
    obtain ⟨t, hs, ht, hv⟩ := upTo_eq_ok h
    simp only at hs hv
    rw [hs] at hd
    rw [hv]
    exact .last hd ht
termination_by s.ahead.length
decreasing_by omega

theorem readsOptional_of_ok {close : Bytes} {p : Progress s Expr}
    (h : optionalExpr close s = .ok p) : ReadsOptional close s p.value p.state := by
  rw [optionalExpr] at h
  split at h
  case h_1 t s₁ h₁ hacc =>
    cases h
    obtain ⟨rfl, hc⟩ := accept?_eq_some hacc
    exact .absent hc
  case h_2 hacc =>
    obtain ⟨t, hx, ht⟩ := reads_upTo h
    exact .present (accept?_eq_none.mp hacc) hx ht

theorem reads_exprStmt {p : Progress s Stmt} (h : exprStmt s = .ok p) :
    ∃ t x, Reads .assign s [x] (p.state.push t) ∧ t.is (ascii ";") ∧ p.value = .expr s.pos x := by
  rw [exprStmt] at h
  obtain ⟨a, ha, h⟩ := Outcome.bind_eq_ok.mp h
  obtain ⟨⟨x, s₁, h₁⟩, hu, h⟩ := Outcome.bind_eq_ok.mp h
  cases h
  obtain ⟨t, hx, ht⟩ := reads_upTo (Outcome.bind_eq_ok.mpr ⟨a, ha, hu⟩)
  exact ⟨t, x, hx, ht, rfl⟩

theorem readsFirst_of_ok {p : Progress s Stmt} (h : firstStep s = .ok p) :
    ReadsFirst s p.value p.state := by
  rw [firstStep] at h
  split at h
  case h_1 t s₁ h₁ hacc =>
    cases h
    obtain ⟨rfl, hc⟩ := accept?_eq_some hacc
    exact .absent hc
  case h_2 hacc =>
    obtain ⟨t, x, hx, ht, hv⟩ := reads_exprStmt h
    rw [hv]
    exact .present (accept?_eq_none.mp hacc) hx ht

theorem reads_parenExpr {p : Progress s Expr} (h : parenExpr s = .ok p) :
    ∃ t₁ t₂ s₁, s = s₁.push t₁ ∧ t₁.is (ascii "(") ∧
      Reads .assign s₁ [p.value] (p.state.push t₂) ∧ t₂.is (ascii ")") := by
  rw [parenExpr] at h
  obtain ⟨⟨t₁, s₁, h₁⟩, hx, h⟩ := Outcome.bind_eq_ok.mp h
  obtain ⟨hs, ht₁⟩ := expect_eq_ok hx
  obtain ⟨a, ha, h⟩ := Outcome.bind_eq_ok.mp h
  obtain ⟨q, hu, h⟩ := Outcome.bind_eq_ok.mp h
  cases h
  obtain ⟨t₂, hx, ht₂⟩ := reads_upTo (Outcome.bind_eq_ok.mpr ⟨a, ha, hu⟩)
  exact ⟨t₁, t₂, s₁, hs, ht₁, hx, ht₂⟩

theorem reads_forHead {p : Progress s (Stmt × Expr × Expr)} (h : forHead s = .ok p) :
    ∃ t s₁ s₂ s₃, s = s₁.push t ∧ t.is (ascii "(") ∧ ReadsFirst s₁ p.value.1 s₂ ∧
      ReadsOptional (ascii ";") s₂ p.value.2.1 s₃ ∧
      ReadsOptional (ascii ")") s₃ p.value.2.2 p.state := by
  rw [forHead] at h
  obtain ⟨⟨t, s₁, h₁⟩, hx, h⟩ := Outcome.bind_eq_ok.mp h
  obtain ⟨hs, ht⟩ := expect_eq_ok hx
  obtain ⟨⟨first, s₂, h₂⟩, ha, h⟩ := Outcome.bind_eq_ok.mp h
  obtain ⟨⟨test, s₃, h₃⟩, hb, h⟩ := Outcome.bind_eq_ok.mp h
  obtain ⟨⟨step, s₄, h₄⟩, hc, h⟩ := Outcome.bind_eq_ok.mp h
  cases h
  exact ⟨t, s₁, s₂, s₃, hs, ht, readsFirst_of_ok ha, readsOptional_of_ok hb,
    readsOptional_of_ok hc⟩

end Sound

def StmtForm.run (s : State) : StmtForm → Except Halt (List Stmt × State)
  | .stmt => (Grammar.stmt s).map fun p => ([p.value], p.state)
  | .otherwise => (Grammar.otherwise s).map fun p => ([p.value], p.state)
  | .block => (Grammar.block s).map fun p => (p.value, p.state)

def StmtForm.rank : StmtForm → Nat
  | .stmt => 0
  | .otherwise => 1
  | .block => 1

def StmtForm.Sound (f : StmtForm) (s : State) : Prop :=
  ∀ xs s', f.run s = .ok (xs, s') → ReadsStmt f s xs s'

section Sound

variable {s : State} (shorter : ∀ g s', s'.ahead.length < s.ahead.length → StmtForm.Sound g s')
include shorter

private theorem sound_stmt : StmtForm.stmt.Sound s := by
  intro xs s' h
  rw [StmtForm.run, Outcome.map_eq_ok] at h
  obtain ⟨p, h, hp⟩ := h
  cases hp
  rcases s.ended_or_push with he | ⟨t, s, rfl⟩
  · rw [stmt, next?_ended he] at h
    obtain ⟨t, x, hx, ht, hv⟩ := reads_exprStmt h
    rw [hv]
    exact .expr (by simp [State.starts, he]) hx ht
  rw [stmt] at h
  simp only [next?_push] at h
  split at h
  case isTrue hret =>
    obtain ⟨a, ha, h⟩ := Outcome.bind_eq_ok.mp h
    obtain ⟨⟨x, s₁, h₁⟩, hu, h⟩ := Outcome.bind_eq_ok.mp h
    cases h
    obtain ⟨t₁, hx, ht₁⟩ := reads_upTo (Outcome.bind_eq_ok.mpr ⟨a, ha, hu⟩)
    exact .ret hret hx ht₁
  split at h
  case isTrue hif =>
    obtain ⟨⟨x, s₁, h₁⟩, hp, h⟩ := Outcome.bind_eq_ok.mp h
    obtain ⟨⟨yes, s₂, h₂⟩, ha, h⟩ := Outcome.bind_eq_ok.mp h
    obtain ⟨⟨no, s₃, h₃⟩, hb, h⟩ := Outcome.bind_eq_ok.mp h
    cases h
    obtain ⟨t₁, t₂, s₀, rfl, ht₁, hx, ht₂⟩ := reads_parenExpr hp
    simp only [State.push_ahead, List.length_cons] at h₁
    change s₂.ahead.length < s₁.ahead.length at h₂
    have hy := shorter .stmt s₁ (by simp; omega) _ _ (by rw [StmtForm.run, ha]; rfl)
    have hn := shorter .otherwise s₂ (by simp; omega) _ _ (by rw [StmtForm.run, hb]; rfl)
    exact .cond hif ht₁ hx ht₂ hy hn
  split at h
  case isTrue hfor =>
    obtain ⟨⟨⟨first, test, step⟩, s₁, h₁⟩, hp, h⟩ := Outcome.bind_eq_ok.mp h
    obtain ⟨⟨body, s₂, h₂⟩, ha, h⟩ := Outcome.bind_eq_ok.mp h
    cases h
    obtain ⟨t₁, s₃, s₄, s₅, rfl, ht₁, hf, hc, hi⟩ := reads_forHead hp
    simp only [State.push_ahead, List.length_cons] at h₁
    have hb := shorter .stmt s₁ (by simp; omega) _ _ (by rw [StmtForm.run, ha]; rfl)
    exact .loop hfor ht₁ hf hc hi hb
  split at h
  case isTrue hwhile =>
    obtain ⟨⟨x, s₁, h₁⟩, hp, h⟩ := Outcome.bind_eq_ok.mp h
    obtain ⟨⟨body, s₂, h₂⟩, ha, h⟩ := Outcome.bind_eq_ok.mp h
    cases h
    obtain ⟨t₁, t₂, s₀, rfl, ht₁, hx, ht₂⟩ := reads_parenExpr hp
    simp only [State.push_ahead, List.length_cons] at h₁
    have hb := shorter .stmt s₁ (by simp; omega) _ _ (by rw [StmtForm.run, ha]; rfl)
    exact .whileLoop hwhile ht₁ hx ht₂ hb
  split at h
  case isTrue hopen =>
    obtain ⟨⟨body, s₁, h₁⟩, ha, h⟩ := Outcome.bind_eq_ok.mp h
    cases h
    exact .nested hopen (shorter .block s (by simp) _ _ (by rw [StmtForm.run, ha]; rfl))
  split at h
  case isTrue hsemi =>
    cases h
    exact .empty hsemi
  obtain ⟨t₁, x, hx, ht₁, hv⟩ := reads_exprStmt h
  rw [hv]
  refine .expr ?_ hx ht₁
  simp_all [stmtStarts]

private theorem sound_otherwise : StmtForm.otherwise.Sound s := by
  intro xs s' h
  rw [StmtForm.run, Outcome.map_eq_ok] at h
  obtain ⟨p, h, hp⟩ := h
  cases hp
  rw [otherwise] at h
  split at h
  case h_1 t s₁ h₁ hacc =>
    obtain ⟨⟨x, s₂, h₂⟩, ha, h⟩ := Outcome.bind_eq_ok.mp h
    cases h
    obtain ⟨rfl, ht⟩ := accept?_eq_some hacc
    exact .orElse ht (shorter .stmt s₁ (by simp) _ _ (by rw [StmtForm.run, ha]; rfl))
  case h_2 hacc =>
    cases h
    exact .noElse (accept?_eq_none.mp hacc)

private theorem sound_block (tighter : StmtForm.stmt.Sound s) : StmtForm.block.Sound s := by
  intro xs s' h
  rw [StmtForm.run, Outcome.map_eq_ok] at h
  obtain ⟨p, h, hp⟩ := h
  cases hp
  rcases s.ended_or_push with he | ⟨t, s, rfl⟩
  · rw [block, next?_ended he] at h
    cases h
  rw [block] at h
  simp only [next?_push] at h
  split at h
  case isTrue hclose =>
    cases h
    exact .endBlock hclose
  split at h
  case isTrue hint =>
    obtain ⟨⟨inits, s₁, h₁⟩, ha, h⟩ := Outcome.bind_eq_ok.mp h
    obtain ⟨⟨body, s₂, h₂⟩, hb, h⟩ := Outcome.bind_eq_ok.mp h
    cases h
    have hr := shorter .block s₁ (by simp; omega) _ _ (by rw [StmtForm.run, hb]; rfl)
    exact .declaration hint (readsDeclarators_of_ok s ha) hr
  case isFalse hclose hint =>
    obtain ⟨⟨x, s₁, h₁⟩, ha, h⟩ := Outcome.bind_eq_ok.mp h
    obtain ⟨⟨body, s₂, h₂⟩, hb, h⟩ := Outcome.bind_eq_ok.mp h
    cases h
    have hx := tighter _ _ (by rw [StmtForm.run, ha]; rfl)
    have hr := shorter .block s₁ h₁ _ _ (by rw [StmtForm.run, hb]; rfl)
    exact .item (by simpa using hclose) (by simpa using hint) hx hr

end Sound

/-- All that is parsed is read. -/
theorem StmtForm.sound (f : StmtForm) (s : State) : f.Sound s := by
  refine ranked_induction StmtForm.rank (fun f s shorter tighter => ?_) f s
  cases f with
  | stmt => exact sound_stmt shorter
  | otherwise => exact sound_otherwise shorter
  | block => exact sound_block shorter (tighter .stmt (by decide))

section Complete

variable {s s' : State} {t : Token} {x : Expr} {close : Bytes}

theorem assign_of_reads (h : Reads .assign s [x] s') : ∃ h₁, assign s = .ok ⟨x, s', h₁⟩ :=
  single_eq_ok (run_of_reads h)

private theorem upTo_of_reads (h : Reads .assign s [x] (s'.push t)) (ht : t.is close) :
    ∃ h₁, (do (← assign s).upTo close) = .ok ⟨x, s', h₁⟩ := by
  obtain ⟨h₁, ha⟩ := assign_of_reads h
  exact ⟨Nat.lt_trans (by simp) h₁, by rw [ha]; exact upTo_push ht⟩

private theorem initialValue_absent {name : Token} {i : Nat} (h : s.starts (ascii "=") = false) :
    initialValue name i s = .ok (.stay []) := by
  rw [initialValue, accept?_eq_none.mpr h]

private theorem initialValue_push (name : Token) (i : Nat) (ht : t.is (ascii "="))
    (h : Reads .assign s [x] s') :
    ∃ h₁, initialValue name i (s.push t) =
      .ok ⟨[.expr name.pos (.assign t.pos (.var name.pos i) x)], s', h₁⟩ := by
  obtain ⟨h₁, ha⟩ := assign_of_reads h
  refine ⟨by simp; omega, ?_⟩
  rw [initialValue]
  simp [ht, ha]

theorem declarator_of_reads {inits : List Stmt} (h : ReadsDeclarator s inits s') :
    ∃ h₁, declarator s = .ok ⟨inits, s', h₁⟩ := by
  cases h with
  | @bare s stars name areStars isName isNew notScratch noValue =>
    have hp := pointers_pushAll (s := s) areStars (Token.is_eq_false_of_ident isName _)
    let locals := declare s.locals name.lit (.stars stars.length) name.pos
    have hv : initialValue name s.locals.length { s with locals } = .ok (.stay []) :=
      initialValue_absent noValue
    refine ⟨by simp [State.pushAll]; omega, ?_⟩
    rw [declarator, hp]
    simp [identifier_push isName, isNew, notScratch, hv, Pause.stay, locals]
  | @init s s₁ stars name t x areStars isName isNew notScratch eq value =>
    have hp := pointers_pushAll (s := s.push t) areStars (Token.is_eq_false_of_ident isName _)
    obtain ⟨h₁, hv⟩ := initialValue_push name s.locals.length eq value
    simp only [State.push_ahead, List.length_cons] at h₁
    refine ⟨by simp [State.pushAll]; omega, ?_⟩
    rw [declarator, hp]
    simp only [State.push] at hv
    simp [identifier_push isName, isNew, notScratch, hv]

private theorem declarators_of_reads {inits : List Stmt} (h : ReadsDeclarators s inits s') :
    ∃ h₁, declarators s = .ok ⟨inits, s', h₁⟩ := by
  induction h with
  | @last s s₁ t inits only ends =>
    obtain ⟨h₁, hd⟩ := declarator_of_reads only
    have hc : t.is (ascii ",") = false := Token.is_eq_false_of_is ends (by decide)
    refine ⟨Nat.lt_trans (by simp) h₁, ?_⟩
    rw [declarators]
    simp [hd, hc, upTo_push ends]
  | @more s s₁ s₂ t inits others first comma rest ih =>
    obtain ⟨h₁, hd⟩ := declarator_of_reads first
    obtain ⟨h₂, hr⟩ := ih
    refine ⟨Nat.lt_trans h₂ (Nat.lt_trans (by simp) h₁), ?_⟩
    rw [declarators]
    simp [hd, comma, hr]

theorem optional_of_reads (h : ReadsOptional close s x s') :
    ∃ h₁, optionalExpr close s = .ok ⟨x, s', h₁⟩ := by
  cases h with
  | absent closes => exact ⟨by simp, by simp [optionalExpr, closes]⟩
  | present notYet inner closes =>
    obtain ⟨h₁, hu⟩ := upTo_of_reads inner closes
    exact ⟨h₁, by rw [optionalExpr, accept?_eq_none.mpr notYet]; exact hu⟩

theorem exprStmt_of_reads (h : Reads .assign s [x] (s'.push t)) (ht : t.is (ascii ";")) :
    ∃ h₁, exprStmt s = .ok ⟨.expr s.pos x, s', h₁⟩ := by
  obtain ⟨h₁, ha⟩ := assign_of_reads h
  refine ⟨Nat.lt_trans (by simp) h₁, ?_⟩
  rw [exprStmt]
  simp [ha, upTo_push ht]

private theorem firstStep_of_reads {first : Stmt} (h : ReadsFirst s first s') :
    ∃ h₁, firstStep s = .ok ⟨first, s', h₁⟩ := by
  cases h with
  | absent ends => exact ⟨by simp, by simp [firstStep, ends]⟩
  | present notYet inner ends =>
    obtain ⟨h₁, hu⟩ := exprStmt_of_reads inner ends
    exact ⟨h₁, by rw [firstStep, accept?_eq_none.mpr notYet]; exact hu⟩

theorem parenExpr_of_reads {t₁ : Token} (ht₁ : t₁.is (ascii "("))
    (h : Reads .assign s [x] (s'.push t)) (ht : t.is (ascii ")")) :
    ∃ h₁, parenExpr (s.push t₁) = .ok ⟨x, s', h₁⟩ := by
  obtain ⟨h₁, ha⟩ := assign_of_reads h
  have shorter : s'.ahead.length < s.ahead.length := Nat.lt_trans (by simp) h₁
  refine ⟨by simp; omega, ?_⟩
  rw [parenExpr]
  simp [expect_push ht₁, ha, upTo_push ht]

private theorem forHead_of_reads {s₁ s₂ : State} {first : Stmt} {test step : Expr}
    (ht : t.is (ascii "(")) (hf : ReadsFirst s first s₁)
    (hc : ReadsOptional (ascii ";") s₁ test s₂) (hi : ReadsOptional (ascii ")") s₂ step s') :
    ∃ h₁, forHead (s.push t) = .ok ⟨(first, test, step), s', h₁⟩ := by
  obtain ⟨h₁, hf⟩ := firstStep_of_reads hf
  obtain ⟨h₂, hc⟩ := optional_of_reads hc
  obtain ⟨h₃, hi⟩ := optional_of_reads hi
  refine ⟨by simp; omega, ?_⟩
  rw [forHead]
  simp [expect_push ht, hf, hc, hi]

end Complete

/-- All that is read is parsed. -/
theorem run_of_readsStmt {f : StmtForm} {s s' : State} {xs : List Stmt}
    (h : ReadsStmt f s xs s') : f.run s = .ok (xs, s') := by
  induction h with
  | ret isReturn value ends =>
    obtain ⟨h₁, hx⟩ := assign_of_reads value
    rw [StmtForm.run, stmt]
    simp [isReturn, hx, upTo_push ends]
  | cond isIf opens test closes first second ih₁ ih₂ =>
    obtain ⟨h₁, hp⟩ := parenExpr_of_reads opens test closes
    obtain ⟨h₂, hy⟩ := single_eq_ok ih₁
    obtain ⟨h₃, hn⟩ := pause_eq_ok ih₂
    have hr := Token.is_eq_false_of_is isIf (b := ascii "return") (by decide)
    rw [StmtForm.run, stmt]
    simp [hr, isIf, hp, hy, hn]
  | loop isFor opens init cond inc inner ih =>
    obtain ⟨h₁, hp⟩ := forHead_of_reads opens init cond inc
    obtain ⟨h₂, hb⟩ := single_eq_ok ih
    have hr := Token.is_eq_false_of_is isFor (b := ascii "return") (by decide)
    have hi := Token.is_eq_false_of_is isFor (b := ascii "if") (by decide)
    rw [StmtForm.run, stmt]
    simp [hr, hi, isFor, hp, hb]
  | whileLoop isWhile opens test closes inner ih =>
    obtain ⟨h₁, hp⟩ := parenExpr_of_reads opens test closes
    obtain ⟨h₂, hb⟩ := single_eq_ok ih
    have hr := Token.is_eq_false_of_is isWhile (b := ascii "return") (by decide)
    have hi := Token.is_eq_false_of_is isWhile (b := ascii "if") (by decide)
    have hf := Token.is_eq_false_of_is isWhile (b := ascii "for") (by decide)
    rw [StmtForm.run, stmt]
    simp [hr, hi, hf, isWhile, hp, hb]
  | nested opens inner ih =>
    obtain ⟨h₁, hb⟩ := list_eq_ok ih
    have hr := Token.is_eq_false_of_is opens (b := ascii "return") (by decide)
    have hi := Token.is_eq_false_of_is opens (b := ascii "if") (by decide)
    have hf := Token.is_eq_false_of_is opens (b := ascii "for") (by decide)
    have hw := Token.is_eq_false_of_is opens (b := ascii "while") (by decide)
    rw [StmtForm.run, stmt]
    simp [hr, hi, hf, hw, opens, hb]
  | empty ends =>
    have hr := Token.is_eq_false_of_is ends (b := ascii "return") (by decide)
    have hi := Token.is_eq_false_of_is ends (b := ascii "if") (by decide)
    have hf := Token.is_eq_false_of_is ends (b := ascii "for") (by decide)
    have hw := Token.is_eq_false_of_is ends (b := ascii "while") (by decide)
    have ho := Token.is_eq_false_of_is ends (b := ascii "\x7b") (by decide)
    rw [StmtForm.run, stmt]
    simp [hr, hi, hf, hw, ho, ends]
  | @expr s s₁ t x plain inner ends =>
    obtain ⟨h₁, hx⟩ := exprStmt_of_reads inner ends
    rw [StmtForm.run, stmt]
    rcases s.ended_or_push with he | ⟨t, s, rfl⟩
    · simp [next?_ended he, hx]
    · simp_all [stmtStarts]
  | noElse noElse =>
    rw [StmtForm.run, otherwise, accept?_eq_none.mpr noElse]
    rfl
  | orElse isElse inner ih =>
    obtain ⟨h₁, hx⟩ := single_eq_ok ih
    rw [StmtForm.run, otherwise]
    simp [isElse, hx]
  | endBlock closes =>
    rw [StmtForm.run, block]
    simp [closes]
  | declaration isInt first rest ih =>
    obtain ⟨h₁, hd⟩ := declarators_of_reads first
    obtain ⟨h₂, hb⟩ := list_eq_ok ih
    have hc := Token.is_eq_false_of_is isInt (b := ascii "\x7d") (by decide)
    rw [StmtForm.run, block]
    simp [hc, isInt, hd, hb]
  | @item s s₁ s₂ x body notEnd noInt first rest ih₁ ih₂ =>
    obtain ⟨h₁, hx⟩ := single_eq_ok ih₁
    obtain ⟨h₂, hb⟩ := list_eq_ok ih₂
    rw [StmtForm.run, block]
    rcases s.ended_or_push with he | ⟨t, s, rfl⟩
    · simp [he] at h₁
    · simp_all [Progress.after, Progress.pause]

end StackC.Grammar
