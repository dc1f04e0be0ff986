import StackC.Proofs.Derivation.CompleteExpr
import StackC.Proofs.Scanning

/-! Statements and programs that the grammar derives are read. An `else` is read with the nearest
conditional that lacks one, so a statement need not end where a derivation of it does. -/
namespace StackC.Derivation
open Grammar

section Parts

variable {b : Phrase} {s s' : State} {text : String}

private theorem exists_assign (h : Spans (.rule .assign) s s') (hf : 5 < nextSlack s') :
    ∃ x s₁, Reads .assign s [x] s₁ ∧ Agree s₁ s' := by
  obtain ⟨xs, s₁, hr, hs⟩ := complete .assign s s' h hf
  obtain ⟨x, rfl⟩ := Reads.single hr (by simp)
  exact ⟨x, s₁, hr, hs⟩

theorem exists_expr_lit (h : Spans (.seq (.rule .expr) (.lit text)) s s')
    (hf : 5 < slack (ascii text)) :
    ∃ x s₁ t, Reads .assign s [x] (s₁.push t) ∧ t.is (ascii text) ∧ Agree s₁ s' := by
  obtain ⟨xs, s₁, t, hr, ht, hs⟩ := (complete .assign s).exists_lit Spans.body h hf
  obtain ⟨x, rfl⟩ := Reads.single hr (by simp)
  exact ⟨x, s₁, t, hr, ht, hs⟩

theorem exists_expr_lit_seq (h : Spans (.seq (.rule .expr) (.seq (.lit text) b)) s s')
    (hf : 5 < slack (ascii text)) :
    ∃ x s₁ t, Reads .assign s [x] (s₁.push t) ∧ t.is (ascii text) ∧ Spans b s₁ s' := by
  obtain ⟨xs, s₁, t, hr, ht, hs⟩ := (complete .assign s).exists_lit_seq Spans.body h hf
  obtain ⟨x, rfl⟩ := Reads.single hr (by simp)
  exact ⟨x, s₁, t, hr, ht, hs⟩

/-- An expression does not begin with other punctuation. -/
theorem starts_eq_false_of_expr {lit : Bytes} (h : Spans (.rule .expr) s s')
    (hl : lit ∉ [ascii "(", ascii "+", ascii "-", ascii "*", ascii "&"]) :
    s.starts lit = false := by
  obtain ⟨t, s₁, rfl, ht⟩ := h.exists_first rfl
  exact is_eq_false_of_beginsExpr ht hl

theorem exists_optional (h : Spans (.seq (.opt (.rule .expr)) (.seq (.lit text) b)) s s')
    (hf : 5 < slack (ascii text))
    (hl : ascii text ∉ [ascii "(", ascii "+", ascii "-", ascii "*", ascii "&"]) :
    ∃ x s₁, ReadsOptional (ascii text) s x s₁ ∧ Spans b s₁ s' := by
  obtain ⟨s₁, ho, hb⟩ := h.exists_seq
  rcases ho.left_or_right with hx | hx
  · obtain ⟨x, s₂, t, hr, ht, hs⟩ := exists_expr_lit_seq (hx.seq hb) hf
    exact ⟨x, s₂, .present (starts_eq_false_of_expr hx hl) hr ht, hs⟩
  · obtain ⟨t, s₂, rfl, ht, hs⟩ := (hb.congr hx.agree).exists_lit_seq
    exact ⟨.absent, s₂, .absent ht, hs⟩

theorem exists_first (h : Spans (.seq (.rule .exprStmt) b) s s') :
    ∃ first s₁, ReadsFirst s first s₁ ∧ Spans b s₁ s' := by
  obtain ⟨s₁, hf, hb⟩ := h.exists_seq
  obtain ⟨s₂, ho, hl⟩ := hf.body.exists_seq
  rcases ho.left_or_right with hx | hx
  · obtain ⟨x, s₃, t, hr, ht, hs⟩ := exists_expr_lit (hx.seq hl) (by decide)
    have hn : s.starts (ascii ";") = false := starts_eq_false_of_expr hx (by decide)
    exact ⟨_, s₃, .present hn hr ht, hb.congr hs⟩
  · obtain ⟨t, s₃, rfl, ht, hs⟩ := (hl.congr hx.agree).exists_lit
    exact ⟨_, s₃, .absent ht, hb.congr hs⟩

theorem exists_stars (h : Spans (.seq (.many (.lit "*")) b) s s') :
    ∃ stars s₁, s = State.pushAll s₁ stars ∧ (∀ t ∈ stars, t.is (ascii "*")) ∧ Spans b s₁ s' := by
  obtain ⟨s₁, ⟨w, o, hw, hd, hn⟩, hb⟩ := h.exists_seq
  obtain ⟨ht, rfl⟩ := derives_stars.mp hd
  refine ⟨w, { s with ahead := s₁.ahead }, ?_, ht, hb.congr ⟨rfl, Option.some.inj hn⟩⟩
  cases s
  simp_all [State.pushAll]

theorem exists_declarator (h : Spans (.rule .declarator) s s') (hf : 5 < nextSlack s') :
    ∃ inits s₁, ReadsDeclarator s inits s₁ ∧ Agree s₁ s' := by
  obtain ⟨stars, s₁, rfl, hstars, h⟩ := exists_stars h.body
  obtain ⟨s₂, hn, ho⟩ := h.exists_seq
  obtain ⟨name, s₁, rfl, hk, ha, hb⟩ := hn.exists_name
  simp only [bind] at hb
  split at hb
  · cases hb
  next hfree =>
  rw [not_or] at hfree
  have hnew : findLocal? s₁.locals name.lit = none := findLocal?_eq_none.mpr hfree.1
  let s₃ : State := { s₁ with locals := declare s₁.locals name.lit (.stars stars.length) name.pos }
  have hs : Agree s₃ s₂ := ⟨ha, by simpa [localNames, s₃, declare] using hb⟩
  rcases (ho.congr hs).left_or_right with hv | hv
  · obtain ⟨t, s₄, hp, ht, hx⟩ := hv.exists_lit_seq
    obtain ⟨s₁, rfl, rfl⟩ := State.eq_push_of_locals hp
    obtain ⟨x, s₅, hr, hs₅⟩ := exists_assign hx hf
    exact ⟨_, s₅, .init hstars hk hnew hfree.2 ht hr, hs₅⟩
  · have he : s₁.starts (ascii "=") = false := by
      refine starts_eq_false ?_
      have hn : nextSlack s₁ = nextSlack s' := hv.agree.nextSlack
      rw [hn]
      exact Nat.ne_of_gt hf
    exact ⟨_, s₃, .bare hstars hk hnew hfree.2 he, hv.agree⟩

theorem exists_declarators
    (h : Spans (.seqs [.rule .declarator, .many (.seqs [.lit ",", .rule .declarator]), .lit ";"])
      s s') :
    ∃ inits s₁, ReadsDeclarators s inits s₁ ∧ Agree s₁ s' := by
  induction hn : s.ahead.length using Nat.strongRecOn generalizing s with
  | _ n ih =>
    obtain ⟨s₁, hx, hm⟩ := h.exists_seq
    obtain ⟨s₂, hm, hl⟩ := hm.exists_seq
    have hlen := hx.length_lt rfl
    rcases hm.none_or_more with hs | ⟨s₃, ho, hm⟩
    · have hl := hl.congr hs
      obtain ⟨inits, s₃, hr, hs₃⟩ := exists_declarator hx (by rw [hl.nextSlack_lit]; decide)
      obtain ⟨t, s₄, rfl, ht, hs₄⟩ := (hl.congr hs₃).exists_lit
      exact ⟨inits, s₄, .last hr ht, hs₄⟩
    · have hf : nextSlack s₁ = 6 := by
        obtain ⟨t, s₄, rfl, ht, -⟩ := ho.exists_lit_seq
        exact nextSlack_of_starts (s := s₄.push t) ht
      obtain ⟨inits, s₄, hr, hs₄⟩ := exists_declarator hx (by omega)
      obtain ⟨t, s₅, rfl, ht, hy⟩ := (ho.congr hs₄).exists_lit_seq
      have hlt : s₅.ahead.length < n := by
        rw [← hs₄.1] at hlen
        simp at hlen
        omega
      obtain ⟨others, s₆, hr', hs₆⟩ := ih _ hlt (hy.seq (hm.seq hl)) rfl
      exact ⟨_, s₆, .more hr ht hr', hs₆⟩

end Parts

/-- Up to the other state one statement is read. -/
def ReadsOne (s s' : State) : Prop := ∃ x s₁, ReadsStmt .stmt s [x] s₁ ∧ Agree s₁ s'

/-- The statement between two states is still one with an `else` and its branch behind it. -/
def TakesElse (s s' : State) : Prop :=
  ∀ s₁, Spans (.seqs [.lit "else", .rule .stmt]) s' s₁ → Spans (.rule .stmt) s s₁

/-- The statement between two states is read, unless an `else` that it takes comes next. -/
def Settled (s s' : State) : Prop :=
  ReadsOne s s' ∨ TakesElse s s' ∧ (s'.starts (ascii "else") = false → ReadsOne s s')

theorem Settled.readsOne {s s' : State} (h : Settled s s') (hn : s'.starts (ascii "else") = false) :
    ReadsOne s s' := by
  rcases h with h | ⟨-, h⟩
  · exact h
  · exact h hn

/-- What stands before a statement to make another one leaves it settled. -/
theorem Settled.wrap {s s₁ s' : State}
    (spans : ∀ s₂, Spans (.rule .stmt) s₁ s₂ → Spans (.rule .stmt) s s₂)
    (reads : ∀ x s₂, ReadsStmt .stmt s₁ [x] s₂ → ∃ y, ReadsStmt .stmt s [y] s₂)
    (h : Settled s₁ s') : Settled s s' := by
  have one : ReadsOne s₁ s' → ReadsOne s s' := by
    rintro ⟨x, s₂, hr, hs⟩
    obtain ⟨y, hy⟩ := reads x s₂ hr
    exact ⟨y, s₂, hy, hs⟩
  rcases h with h | ⟨ht, h⟩
  · exact .inl (one h)
  · exact .inr ⟨fun s₂ hs => spans s₂ (ht s₂ hs), fun hn => one (h hn)⟩

section Steps

variable {s : State}
  (shorter : ∀ s₁ s', s₁.ahead.length < s.ahead.length → Spans (.rule .stmt) s₁ s' → Settled s₁ s')
include shorter

/-- Of two conditionals before one `else`, the inner one takes it. -/
theorem settled_cond {s' : State} (h : Spans (.seqs [.lit "if", .lit "(", .rule .expr, .lit ")",
    .rule .stmt, .opt (.seqs [.lit "else", .rule .stmt])]) s s') : Settled s s' := by
  obtain ⟨t, s, rfl, ht, h₁⟩ := h.exists_lit_seq
  obtain ⟨t₁, s, rfl, ht₁, h₂⟩ := h₁.exists_lit_seq
  obtain ⟨x, s₁, t₂, hx, ht₂, h₃⟩ := exists_expr_lit_seq h₂ (by decide)
  obtain ⟨s₂, hfirst, hopt⟩ := h₃.exists_seq
  have hl := (spans_of_reads hx).length_lt rfl
  have short : s₁.ahead.length < ((s.push t₁).push t).ahead.length := by
    simp at hl ⊢
    omega
  -- Without a branch for `else` the statement takes one.
  have lacks {s₃ s₄ : State} (hs : Spans (.rule .stmt) s₁ s₃) (hs₄ : Agree s₃ s₄) :
      Settled ((s.push t₁).push t) s₄ := by
    refine .inr ⟨fun s₅ he => spans_cond ht ht₁ hx ht₂ hs (.left (he.congr hs₄)), fun hn => ?_⟩
    have hn₃ : s₃.starts (ascii "else") = false := by rwa [State.starts, hs₄.1]
    obtain ⟨y, s₅, hr, hs₅⟩ := (shorter s₁ s₃ short hs).readsOne hn₃
    have hn₅ : s₅.starts (ascii "else") = false := by rwa [State.starts, hs₅.1]
    exact ⟨_, _, .cond ht ht₁ hx ht₂ hr (.noElse hn₅), hs₅.1.trans hs₄.1, hs₅.2.trans hs₄.2⟩
  rcases hopt.left_or_right with helse | hnone
  · rcases shorter s₁ s₂ short hfirst with ⟨y, s₃, hr, hs₃⟩ | ⟨htake, -⟩
    · obtain ⟨t₃, s₃, rfl, ht₃, hsecond⟩ := (helse.congr hs₃).exists_lit_seq
      have hl₃ := (spans_of_readsStmt hr).length_lt rfl
      have hrest := shorter s₃ s' (by simp at hl₃ short ⊢; omega) hsecond
      refine hrest.wrap (fun s₄ hs => ?_) (fun z s₄ hz => ?_)
      · exact spans_cond ht ht₁ hx ht₂ (spans_of_readsStmt hr) (.left (.seq (.lit ht₃) hs))
      · exact ⟨_, .cond ht ht₁ hx ht₂ hr (.orElse ht₃ hz)⟩
    · exact lacks (htake s' helse) (Agree.refl s')
  · exact lacks hfirst hnone.agree

private theorem settled_loop {s' : State} (h : Spans (.seqs [.lit "for", .lit "(", .rule .exprStmt,
    .opt (.rule .expr), .lit ";", .opt (.rule .expr), .lit ")", .rule .stmt]) s s') :
    Settled s s' := by
  obtain ⟨t, s, rfl, ht, h₁⟩ := h.exists_lit_seq
  obtain ⟨t₁, s, rfl, ht₁, h₂⟩ := h₁.exists_lit_seq
  obtain ⟨first, s₁, hi, h₃⟩ := exists_first h₂
  obtain ⟨test, s₂, hc, h₄⟩ := exists_optional h₃ (by decide) (by decide)
  obtain ⟨step, s₃, hp, h₅⟩ := exists_optional h₄ (by decide) (by decide)
  have hl₁ := (spans_of_readsFirst hi).length_lt rfl
  have hl₂ := (spans_of_readsOptional hc).length_lt rfl
  have hl₃ := (spans_of_readsOptional hp).length_lt rfl
  have hbody := shorter s₃ s' (by simp; omega) h₅
  exact hbody.wrap (fun s₄ hs => spans_loop ht ht₁ hi hc hp hs)
    (fun x s₄ hx => ⟨_, .loop ht ht₁ hi hc hp hx⟩)

private theorem settled_while {s' : State}
    (h : Spans (.seqs [.lit "while", .lit "(", .rule .expr, .lit ")", .rule .stmt]) s s') :
    Settled s s' := by
  obtain ⟨t, s, rfl, ht, h₁⟩ := h.exists_lit_seq
  obtain ⟨t₁, s, rfl, ht₁, h₂⟩ := h₁.exists_lit_seq
  obtain ⟨x, s₁, t₂, hx, ht₂, h₃⟩ := exists_expr_lit_seq h₂ (by decide)
  have hl := (spans_of_reads hx).length_lt rfl
  have hbody := shorter s₁ s' (by simp at hl ⊢; omega) h₃
  exact hbody.wrap (fun s₄ hs => spans_while ht ht₁ hx ht₂ hs)
    (fun y s₄ hy => ⟨_, .whileLoop ht ht₁ hx ht₂ hy⟩)

end Steps

private theorem settled_return {s s' : State}
    (h : Spans (.seqs [.lit "return", .rule .expr, .lit ";"]) s s') : Settled s s' := by
  obtain ⟨t, s, rfl, ht, h⟩ := h.exists_lit_seq
  obtain ⟨x, s₁, t₁, hx, ht₁, hs⟩ := exists_expr_lit h (by decide)
  exact .inl ⟨_, _, .ret ht hx ht₁, hs⟩

theorem settled_exprStmt {s s' : State} (h : Spans (.rule .exprStmt) s s') : Settled s s' := by
  obtain ⟨s₁, ho, hl⟩ := h.body.exists_seq
  rcases ho.left_or_right with hx | hx
  · obtain ⟨x, s₂, t, hr, ht, hs⟩ := exists_expr_lit (hx.seq hl) (by decide)
    have hn : ∀ lit ∈ stmtStarts, s.starts lit = false := by
      intro lit hm
      have hd : ∀ lit ∈ stmtStarts,
          lit ∉ [ascii "(", ascii "+", ascii "-", ascii "*", ascii "&"] := by decide
      exact starts_eq_false_of_expr hx (hd lit hm)
    exact .inl ⟨_, _, .expr hn hr ht, hs⟩
  · obtain ⟨t, s₂, rfl, ht, hs⟩ := (hl.congr hx.agree).exists_lit
    exact .inl ⟨_, _, .empty ht, hs⟩

/-- A token that a statement begins with stands for nothing else. -/
theorem is_eq_false_of_beginsStmt {t : Token} {lit : Bytes} (h : beginsStmt t)
    (hl : lit ∉ [ascii "(", ascii "+", ascii "-", ascii "*", ascii "&"])
    (hs : lit ∉ stmtStarts) : t.is lit = false := by
  simp only [beginsStmt, Bool.or_eq_true, List.any_eq_true] at h
  rcases h with h | ⟨l, hm, h⟩
  · exact is_eq_false_of_beginsExpr h hl
  · exact Token.is_eq_false_of_is h (fun he => hs (he ▸ hm))

/-- No block goes on with an `else`. -/
theorem noElse_of_block {s s' : State} (h : Spans (.rule .block) s s') :
    s.starts (ascii "else") = false := by
  obtain ⟨t, s, rfl, ht⟩ := h.exists_first rfl
  simp only [Phrase.first, Rule.first, Bool.or_eq_true] at ht
  rcases ht with (ht | ht) | ht
  · exact is_eq_false_of_beginsStmt ht (by decide) (by decide)
  · exact Token.is_eq_false_of_is ht (by decide)
  · exact Token.is_eq_false_of_is ht (by decide)

theorem exists_block {n : Nat}
    (stmts : ∀ s s', s.ahead.length ≤ n → Spans (.rule .stmt) s s' → Settled s s')
    {s s' : State} (hs : s.ahead.length ≤ n) (h : Spans (.rule .block) s s') :
    ∃ xs s₁, ReadsStmt .block s xs s₁ ∧ Agree s₁ s' := by
  induction hm : s.ahead.length using Nat.strongRecOn generalizing s with
  | _ m ih =>
    obtain ⟨s₁, hi, hc⟩ := h.body.exists_seq
    rcases hi.none_or_more with he | ⟨s₂, hx, hi⟩
    · obtain ⟨t, s, rfl, ht, he⟩ := (hc.congr he).exists_lit
      exact ⟨_, _, .endBlock ht, he⟩
    have hrest : Spans (.rule .block) s₂ s' := .rule (.seq hi hc)
    rcases hx.left_or_right with hx | hx
    · obtain ⟨t, s, rfl, ht, hd⟩ := hx.body.exists_lit_seq
      obtain ⟨inits, s₃, hr, hs₃⟩ := exists_declarators hd
      have hl := (spans_of_readsDeclarators hr).length_lt rfl
      have hlt : s₃.ahead.length < m := by
        simp at hm
        omega
      obtain ⟨xs, s₄, hr', hs₄⟩ := ih _ hlt (by omega) (hrest.congr hs₃) rfl
      exact ⟨_, _, .declaration ht hr hr', hs₄⟩
    · obtain ⟨x, s₃, hr, hs₃⟩ := (stmts s s₂ hs hx).readsOne (noElse_of_block hrest)
      have hl := (spans_of_readsStmt hr).length_lt rfl
      obtain ⟨xs, s₄, hr', hs₄⟩ := ih _ (by omega) (by omega) (hrest.congr hs₃) rfl
      obtain ⟨t, s, rfl, ht⟩ := hx.exists_first rfl
      have hend : t.is (ascii "\x7d") = false :=
        is_eq_false_of_beginsStmt ht (by decide) (by decide)
      have hint : t.is (ascii "int") = false :=
        is_eq_false_of_beginsStmt ht (by decide) (by decide)
      exact ⟨_, _, .item hend hint hr hr', hs₄⟩

private theorem settled {s s' : State} (h : Spans (.rule .stmt) s s') : Settled s s' := by
  induction hn : s.ahead.length using Nat.strongRecOn generalizing s s' with
  | _ n ih =>
    subst hn
    have shorter : ∀ s₁ s', s₁.ahead.length < s.ahead.length → Spans (.rule .stmt) s₁ s' →
        Settled s₁ s' := fun s₁ s' hl h => ih _ hl h rfl
    rcases h.body.left_or_right with h | h
    · exact settled_return h
    rcases h.left_or_right with h | h
    · exact settled_cond shorter h
    rcases h.left_or_right with h | h
    · exact settled_loop shorter h
    rcases h.left_or_right with h | h
    · exact settled_while shorter h
    rcases h.left_or_right with h | h
    · obtain ⟨t, s, rfl, ht, h⟩ := h.exists_lit_seq
      have stmts : ∀ s₁ s', s₁.ahead.length ≤ s.ahead.length → Spans (.rule .stmt) s₁ s' →
          Settled s₁ s' := fun s₁ s' hl => shorter s₁ s' (Nat.lt_succ_of_le hl)
      obtain ⟨xs, s₁, hr, hs⟩ := exists_block stmts (Nat.le_refl _) h
      exact .inl ⟨_, _, .nested ht hr, hs⟩
    · exact settled_exprStmt h

theorem readsStmt_of_block {s s' : State} (h : Spans (.rule .block) s s') :
    ∃ xs s₁, ReadsStmt .block s xs s₁ ∧ Agree s₁ s' :=
  exists_block (fun _ _ _ h => settled h) (Nat.le_refl _) h

/-- A function is read from what derives it, and its name comes before all others in it. -/
theorem readsFunction_of_derives {s : State} {w rest : List Token} {o : List Occurrence}
    {names locals : List Bytes} (hs : s.ahead = w ++ rest) (hd : Derives (.rule .function) w o)
    (hb : bindAll names o = some locals) :
    ∃ f s₁ o₁, ReadsFunction s f s₁ ∧ s₁.ahead = rest ∧ o = ⟨.function, f.name⟩ :: o₁ ∧
      functionNames o₁ = [] := by
  obtain ⟨_, _, hint, _, _, h₁, rfl, rfl⟩ := derives_seq.mp (derives_rule.mp hd)
  obtain ⟨stars, _, hstars, _, _, h₂, rfl, rfl⟩ := derives_seq.mp h₁
  obtain ⟨_, _, hname, _, _, h₃, rfl, rfl⟩ := derives_seq.mp h₂
  obtain ⟨_, _, hopen, _, _, h₄, rfl, rfl⟩ := derives_seq.mp h₃
  obtain ⟨_, _, hclose, _, _, h₅, rfl, rfl⟩ := derives_seq.mp h₄
  obtain ⟨_, _, hbrace, v, o₁, hblock, rfl, rfl⟩ := derives_seq.mp h₅
  obtain ⟨t, ht, rfl, rfl⟩ := derives_lit.mp hint
  obtain ⟨areStars, rfl⟩ := derives_stars.mp hstars
  obtain ⟨name, hk, rfl, rfl⟩ := derives_name.mp hname
  obtain ⟨opening, ho, rfl, rfl⟩ := derives_lit.mp hopen
  obtain ⟨closing, hc, rfl, rfl⟩ := derives_lit.mp hclose
  obtain ⟨brace, hbr, rfl, rfl⟩ := derives_lit.mp hbrace
  let s₀ : State := { s with ahead := v ++ rest }
  have he : s =
      (((((s₀.push brace).push closing).push opening).push name).pushAll stars).push t := by
    cases s
    simpa [s₀, State.push, State.pushAll] using hs
  have hspan : Spans (.rule .block) { s₀ with locals := [] }
      { s with ahead := rest, locals := locals.map fun name => ⟨name, .int, 0⟩ } := by
    refine ⟨v, o₁, rfl, hblock, ?_⟩
    simpa [localNames, Function.comp_def, bind] using hb
  obtain ⟨stmts, s₁, hr, hs₁⟩ := readsStmt_of_block hspan
  rw [he]
  exact ⟨_, s₁, o₁, .intro ht areStars hk ho hc hbr hr, hs₁.1, rfl,
    functionNames_eq_nil.mpr (role_ne_function hblock rfl)⟩

private theorem readsFunctions_of_derives (known : List Function) {s : State} {o : List Occurrence}
    {names : List Bytes} (hd : Derives (.many (.rule .function)) s.ahead o)
    (hb : (bindAll names o).isSome) (hn : (known.map Function.name ++ functionNames o).Nodup) :
    ∃ p, ReadsFunctions known s p := by
  generalize ha : Phrase.many (.rule .function) = a at hd
  generalize hw : s.ahead = w at hd
  induction hd generalizing known s names with
  | none => exact ⟨_, .done hw⟩
  | @more a v w o₁ o₂ hf hm _ ih =>
    cases ha
    obtain ⟨final, hfinal⟩ := Option.isSome_iff_exists.mp hb
    rw [bindAll_append, Option.bind_eq_some_iff] at hfinal
    obtain ⟨locals, hl, hfinal⟩ := hfinal
    obtain ⟨f, s₁, o₃, hr, hs₁, rfl, ho₃⟩ := readsFunction_of_derives hw hf hl
    rw [functionNames_append, functionNames_cons, ho₃] at hn
    have hnew : findFunction? known f.name = none := by
      simp [List.nodup_append, findFunction?] at hn ⊢
      grind
    have hn₁ : ((known ++ [f]).map Function.name ++ functionNames o₂).Nodup := by simpa using hn
    obtain ⟨p, hp⟩ := ih (known ++ [f]) (Option.isSome_of_eq_some hfinal) hn₁ rfl hs₁
    exact ⟨p, .more hr hnew hp⟩
  | _ => cases ha

theorem readsProgram_of_derives {s : State} {o : List Occurrence} (hs : s.locals = [])
    (hd : Derives (programPhrase (s.starts (ascii "\x7b"))) s.ahead o) (hc : SideConditions o) :
    ∃ p, ReadsProgram s p := by
  have hb : (bindAll [] o).isSome := by
    rw [isSome_bindAll_iff List.not_mem_nil]
    exact ⟨hc.declaredFirst, hc.unreserved, fun _ _ _ => List.not_mem_nil⟩
  cases ht : s.starts (ascii "\x7b") with
  | true =>
    obtain ⟨locals, hl⟩ := Option.isSome_iff_exists.mp hb
    have hspan : Spans (.seq (.lit "\x7b") (.rule .block)) s
        { s with ahead := [], locals := locals.map fun name => ⟨name, .int, 0⟩ } := by
      rw [ht] at hd
      refine ⟨s.ahead, o, by simp, hd, ?_⟩
      simpa [localNames, Function.comp_def, hs] using hl
    obtain ⟨t, s, rfl, ht, hblock⟩ := hspan.exists_lit_seq
    obtain ⟨stmts, s₁, hr, hs₁⟩ := readsStmt_of_block hblock
    exact ⟨_, .topLevel ht hr hs₁.1⟩
  | false =>
    rw [ht] at hd
    obtain ⟨p, hp⟩ := readsFunctions_of_derives [] hd hb hc.distinct
    exact ⟨p, .functions ht hp⟩

/-- The rule for a token list as a whole: a block, if it opens with a brace, and functions
otherwise. -/
def startRule (toks : List Token) : Rule :=
  if toks.head?.any (·.is (ascii "\x7b")) then .topLevel else .functions

theorem derives_seq_endMark {a : Phrase} {w : List Token} {stop : Int} {o : List Occurrence} :
    Derives (.seq a .endMark) (w ++ [.eof stop]) o ↔ Derives a w o := by
  constructor
  · intro h
    obtain ⟨v, o₁, ha, _, _, he, hw, rfl⟩ := derives_seq.mp h
    obtain ⟨t, -, rfl, rfl⟩ := derives_endMark.mp he
    obtain ⟨rfl, -⟩ := List.append_inj' hw rfl
    simpa using ha
  · intro h
    simpa using h.seq (.endMark (t := .eof stop) rfl)

private theorem derives_startRule {toks : List Token} {stop : Int} {o : List Occurrence} :
    Derives (.rule (startRule (toks ++ [.eof stop]))) (toks ++ [.eof stop]) o ↔
      Derives (programPhrase (toks.head?.any (·.is (ascii "\x7b")))) toks o := by
  have hstart : (toks ++ [Token.eof stop]).head?.any (·.is (ascii "\x7b")) =
      toks.head?.any (·.is (ascii "\x7b")) := by
    cases toks <;> rfl
  rw [startRule, hstart, derives_rule]
  cases toks.head?.any (·.is (ascii "\x7b")) with
  | false => exact derives_seq_endMark
  | true => exact derives_seq_assoc.trans derives_seq_endMark

/-- A scanned text is parsed if and only if the grammar derives its tokens and its names satisfy
the side conditions. -/
theorem parse_isOk_iff_derives {src : Bytes} {toks : List Token} (h : Token.scan src = .ok toks)
    (req : Requirements) :
    (∃ p, parse toks req = .ok p) ↔
      ∃ occ, Derives (.rule (startRule toks)) toks occ ∧ SideConditions occ := by
  obtain ⟨stop, htoks, -⟩ := Token.scan_eq_ok h
  have hstart (occ : List Occurrence) : Derives (.rule (startRule toks)) toks occ ↔
      Derives (programPhrase ((initial toks req).starts (ascii "\x7b"))) (initial toks req).ahead
        occ := by
    conv_lhs => rw [htoks]
    exact derives_startRule
  simp only [hstart, parse_eq_ok_iff]
  constructor
  · rintro ⟨p, hp⟩
    exact derives_of_readsProgram hp rfl
  · rintro ⟨occ, hd, hc⟩
    exact readsProgram_of_derives rfl hd hc

/-- The tokens of a block that declares a name behind its first use. -/
def lateDeclaration : List Token :=
  [⟨.punct, 0, ascii "\x7b", 0⟩, ⟨.ident, 1, ascii "x", 0⟩, ⟨.punct, 2, ascii ";", 0⟩,
    ⟨.keyword, 3, ascii "int", 0⟩, ⟨.ident, 7, ascii "x", 0⟩, ⟨.punct, 8, ascii ";", 0⟩,
    ⟨.punct, 9, ascii "\x7d", 0⟩, .eof 10]

theorem parse_isOk_iff_derives_lateDeclaration :
    Token.scan (ascii "\x7bx;int x;\x7d") = .ok lateDeclaration ∧
      ((∃ p, parse lateDeclaration {} = .ok p) ↔
        ∃ occ, Derives (.rule (startRule lateDeclaration)) lateDeclaration occ ∧
          SideConditions occ) := by
  have h : Token.scan (ascii "\x7bx;int x;\x7d") = .ok lateDeclaration := by decide +kernel
  exact ⟨h, parse_isOk_iff_derives h {}⟩

end StackC.Derivation
