import StackC.Proofs.Derivation.Complete
import StackC.Proofs.Derivation.Walk

/-! What is read is what a walk along the grammar passes. -/
namespace StackC

def Grammar.State.tokens (s : State) : List Token := s.ahead ++ [.eof s.stop]

namespace Derivation
open Grammar

section Opening

variable {b : Phrase} {s : State} {t : Token} {text : String} {v : List Token}

theorem opens_lit : (Phrase.lit text).opens s.tokens = s.starts (ascii text) := by
  rcases s.ended_or_push with he | ⟨t, s, rfl⟩
  · simp [State.tokens, State.starts, he, Phrase.first, Token.is, Token.eof]
  · rfl

/-- Behind a token that does not come next nothing begins. -/
theorem closed_of_starts (h : s.starts (ascii text) = false) :
    (Phrase.seq (.lit text) b).opens s.tokens = false :=
  Phrase.closed_seq (by rw [opens_lit, h]) rfl

theorem opens_of_is (h : t.is (ascii text)) : (Phrase.seq (.lit text) b).opens (t :: v) :=
  Phrase.opens_seq_of (a := .lit text) h

theorem closed_of_is {text' : String} (h : t.is (ascii text)) (hne : ascii text ≠ ascii text') :
    (Phrase.seq (.lit text') b).opens (t :: v) = false :=
  Phrase.closed_seq (a := .lit text') (Token.is_eq_false_of_is h hne) rfl

theorem beginsExpr_eq_false {lit : Bytes} (h : t.is lit)
    (hl : lit ∉ [ascii "(", ascii "+", ascii "-", ascii "*", ascii "&"]) :
    beginsExpr t = false := by
  rw [Bool.eq_false_iff]
  intro hb
  rw [is_eq_false_of_beginsExpr hb hl] at h
  cases h

theorem first_levelOperator_eq {n : Nat} (hn : n < levels) (t : Token) :
    (levelOperator n).first t = (operator? n t).isSome := by
  match n with
  | 0 | 1 | 2 | 3 =>
    simp only [levelOperator, Phrase.oneOf, Phrase.first, operator?]
    grind
  | n + 4 => exact absurd hn (by simp [levels])

theorem first_levelOperator {n : Nat} {op : BinaryOp × Bool} (h : operator? n t = some op) :
    (levelOperator n).first t := by
  rw [first_levelOperator_eq (lt_levels_of_operator? h), h]
  rfl

private theorem closed_levelOperator {n : Nat} (hn : n < levels) (h : s.noOperator n) :
    (levelOperator n).opens s.tokens = false := by
  rcases s.ended_or_push with he | ⟨t, s, rfl⟩
  · rw [State.tokens, he, List.nil_append, Phrase.opens_cons, first_levelOperator_eq hn,
      Bool.eq_false_iff]
    intro ho
    -- An end mark ties nothing to what stands before it.
    have hs := nextSlack_of_operator? (s := s) ho
    rw [nextSlack] at hs
    have hl : n < 4 := hn
    simp [Token.eof] at hs
    omega
  · rw [State.tokens, State.push_ahead, List.cons_append, Phrase.opens_cons,
      first_levelOperator_eq hn]
    change operator? n t = none at h
    rw [h]
    rfl

theorem first_unaryOperator {node : Int → Expr → Expr} (h : unary? t = some node) :
    (Phrase.oneOf "+" ["-", "*", "&"]).first t :=
  first_of_derives (derives_unaryOperator.mpr ⟨t, .inr (Option.isSome_of_eq_some h), rfl, rfl⟩)

theorem closed_unaryOperator (h : s.noUnary) :
    (Phrase.oneOf "+" ["-", "*", "&"]).opens s.tokens = false := by
  rcases s.ended_or_push with he | ⟨t, s, rfl⟩
  · rw [State.tokens, he]
    rfl
  · obtain ⟨hp, hu⟩ := h
    change unary? t = none at hu
    change t.is (ascii "+") = false at hp
    change (Phrase.oneOf "+" ["-", "*", "&"]).first t = false
    simp only [unary?] at hu
    simp only [Phrase.oneOf, Phrase.first]
    grind

end Opening

section Walks

variable {a b : Phrase} {t : Token} {text : String} {v v₁ v₂ : List Token}

theorem Walks.lit (h : t.is (ascii text)) : Walks (.lit text) (t :: v) v := .token rfl h

theorem Walks.oneOf {texts : List String} (h : (Phrase.oneOf text texts).first t) :
    Walks (.oneOf text texts) (t :: v) v := by
  induction texts generalizing text with
  | nil => exact .token rfl h
  | cons more texts ih =>
    cases ht : t.is (ascii text) with
    | true => exact .left ht (.lit ht)
    | false =>
      refine .right ht (ih ?_)
      simpa [Phrase.oneOf, Phrase.first, ht] using h

theorem Walks.levelOperator {n : Nat} {op : BinaryOp × Bool} (h : operator? n t = some op) :
    Walks (levelOperator n) (t :: v) v := by
  have hf := first_levelOperator h
  match n with
  | 0 | 1 | 2 | 3 => exact .oneOf hf
  | n + 4 => cases h

private theorem nullable_levelOperator (n : Nat) : (levelOperator n).nullable = false := by
  match n with
  | 0 | 1 | 2 | 3 => rfl
  | n + 4 => rfl

theorem factored_levelRule (n : Nat) : (levelRule n).factored = (levelRule n).body := by
  match n with
  | 0 | 1 | 2 | 3 => rfl
  | n + 4 => rfl

/-- One more item and a comma before others. -/
theorem Walks.item {c : Phrase} (ht : t.is (ascii ",")) (first : Walks a v (t :: v₁))
    (rest : Walks (.seq a (.seq (.many (.seq (.lit ",") a)) c)) v₁ v₂) :
    Walks (.seq a (.seq (.many (.seq (.lit ",") a)) c)) v v₂ := by
  obtain ⟨v₃, second, others⟩ := rest.exists_seq
  exact .seq first (.many_seq (opens_of_is ht) (.seq (.lit ht) second) others)

/-- A name or a call is opened by its name. -/
theorem opens_name {role : Role} (h : t.kind = .ident) :
    (Phrase.seq (.name role) b).opens (t :: v) :=
  Phrase.opens_seq_of (a := .name role) (beq_iff_eq.mpr h)

theorem walks_stars {s : State} {stars : List Token} (h : ∀ t ∈ stars, t.is (ascii "*"))
    (hn : s.starts (ascii "*") = false) :
    Walks (.many (.lit "*")) (s.pushAll stars).tokens s.tokens := by
  induction stars with
  | nil => exact .none (opens_lit.trans hn)
  | cons t stars ih =>
    rw [List.forall_mem_cons] at h
    exact .more h.1 (.lit h.1) (ih h.2)

end Walks

/-- An expression is passed as it is read. -/
theorem walks_of_reads {f : Form} {s s' : State} {xs : List Expr} (h : Reads f s xs s') :
    Walks (phrase f) s.tokens s'.tokens := by
  induction h with
  | paren opens inner closes ih =>
    exact .rule (.left (opens_of_is opens) (.seq (.lit opens) (.seq (.rule ih) (.lit closes))))
  | @call s s₁ t t₁ args isName opens inner ih =>
    have hp : t.is (ascii "(") = false := Token.is_eq_false_of_ident isName _
    exact .rule (.right (closed_of_starts (s := (s.push t₁).push t) hp) (.left (opens_name isName)
      (.seq (.token rfl (beq_iff_eq.mpr isName))
        (.left (opens_of_is opens) (.seq (.lit opens) ih)))))
  | @name s t i locals fresh isName noCall known =>
    have hp : t.is (ascii "(") = false := Token.is_eq_false_of_ident isName _
    exact .rule (.right (closed_of_starts (s := s.push t) hp) (.left (opens_name isName)
      (.seq (.token rfl (beq_iff_eq.mpr isName)) (.right (closed_of_starts noCall) .empty))))
  | @number s t isNumber =>
    have hp : t.is (ascii "(") = false := Token.is_eq_false_of_num isNumber _
    have hn : (Phrase.name .used).first t = false := by simp [Phrase.first, isNumber]
    exact .rule (.right (closed_of_starts (s := s.push t) hp)
      (.right (Phrase.closed_seq hn rfl) (.token rfl (beq_iff_eq.mpr isNumber))))
  | noArguments closes =>
    have hn : (Phrase.rule .assign).first _ = false := beginsExpr_eq_false closes (by decide)
    exact .seq (.right (Phrase.closed_seq hn rfl) .empty) (.lit closes)
  | arguments more inner closes ih =>
    exact .seq (.left (ih.opens rfl) ih) (.lit closes)
  | lastArgument only last ih => exact .seq ih (.none (closed_of_starts last))
  | moreArguments first comma others ih₁ ih₂ =>
    obtain ⟨v, second, rest⟩ := ih₂.exists_seq
    exact .seq ih₁ (.more (opens_of_is comma) (.seq (.lit comma) second) rest)
  | @plus s s₁ t x isPlus operand ih =>
    have hf : (Phrase.oneOf "+" ["-", "*", "&"]).first t :=
      first_of_derives (derives_unaryOperator.mpr ⟨t, .inl isPlus, rfl, rfl⟩)
    exact .rule (.left (Phrase.opens_seq_of hf) (.seq (.oneOf hf) ih))
  | unary noPlus isOp operand ih =>
    have hf := first_unaryOperator isOp
    exact .rule (.left (Phrase.opens_seq_of hf) (.seq (.oneOf hf) ih))
  | operand noUnary inner ih =>
    exact .rule (.right (Phrase.closed_seq (closed_unaryOperator noUnary) rfl) ih)
  | tightest inner ih => exact ih
  | @level s s₁ s₂ n l x left rest ih₁ ih₂ =>
    by_cases hn : n < levels
    · rw [phrase, if_pos hn] at ih₂
      refine .rule ?_
      rw [factored_levelRule, body_levelRule hn]
      exact .seq ih₁ ih₂
    -- Beyond the last level there are no operators, so that the chain goes nowhere.
    · rw [phrase, if_neg hn] at ih₂
      rw [phrase, levelRule_succ hn, ← Walks.unique .empty ih₂]
      exact ih₁
  | @endChain s n l noOperator =>
    rw [phrase]
    split
    · next hn =>
      have hc := closed_levelOperator hn noOperator
      exact .none (Phrase.closed_seq hc (nullable_levelOperator n))
    · exact .empty
  | @chain s s₁ s₂ t n op swap l r x isOp right rest ih₁ ih₂ =>
    rw [phrase, if_pos (lt_levels_of_operator? isOp)] at ih₂ ⊢
    refine .more (Phrase.opens_seq_of ?_) (.seq (.levelOperator isOp) ih₁) ih₂
    exact first_levelOperator isOp
  | value inner noAssign ih => exact .rule (.seq ih (.right (closed_of_starts noAssign) .empty))
  | assign left eq right ih₁ ih₂ =>
    exact .rule (.seq ih₁ (.left (opens_of_is eq) (.seq (.lit eq) ih₂)))

section Statements

variable {s s' : State}

theorem walks_of_readsDeclarator {inits : List Stmt} (h : ReadsDeclarator s inits s') :
    Walks (.rule .declarator) s.tokens s'.tokens := by
  cases h with
  | @bare s stars name areStars isName isNew notScratch noValue =>
    have hn : (s.push name).starts (ascii "*") = false := Token.is_eq_false_of_ident isName _
    exact .rule (.seq (walks_stars areStars hn)
      (.seq (.token rfl (beq_iff_eq.mpr isName)) (.right (closed_of_starts noValue) .empty)))
  | @init s s₁ stars name t x areStars isName isNew notScratch eq value =>
    have hn : ((s.push t).push name).starts (ascii "*") = false :=
      Token.is_eq_false_of_ident isName _
    exact .rule (.seq (walks_stars areStars hn) (.seq (.token rfl (beq_iff_eq.mpr isName))
      (.left (opens_of_is eq) (.seq (.lit eq) (walks_of_reads value)))))

theorem walks_of_readsDeclarators {inits : List Stmt} (h : ReadsDeclarators s inits s') :
    Walks (.seqs [.rule .declarator, .many (.seqs [.lit ",", .rule .declarator]), .lit ";"])
      s.tokens s'.tokens := by
  induction h with
  | last only ends =>
    exact .seq (walks_of_readsDeclarator only)
      (.seq (.none (closed_of_is ends (by decide))) (.lit ends))
  | more first comma rest ih => exact .item comma (walks_of_readsDeclarator first) ih

theorem walks_of_readsOptional {close : String} {x : Expr}
    (hc : ascii close ∉ [ascii "(", ascii "+", ascii "-", ascii "*", ascii "&"])
    (h : ReadsOptional (ascii close) s x s') :
    Walks (.seq (.opt (.rule .expr)) (.lit close)) s.tokens s'.tokens := by
  cases h with
  | absent closes => exact .seq (.right (beginsExpr_eq_false closes hc) .empty) (.lit closes)
  | present notYet inner closes =>
    have hx : Walks (.rule .expr) _ _ := .rule (walks_of_reads inner)
    exact .seq (.left (hx.opens rfl) hx) (.lit closes)

theorem walks_of_readsFirst {first : Stmt} (h : ReadsFirst s first s') :
    Walks (.rule .exprStmt) s.tokens s'.tokens := by
  cases h with
  | absent ends =>
    exact .rule (.seq (.right (beginsExpr_eq_false ends (by decide)) .empty) (.lit ends))
  | present notYet inner ends =>
    have hx : Walks (.rule .expr) _ _ := .rule (walks_of_reads inner)
    exact .rule (.seq (.left (hx.opens rfl) hx) (.lit ends))

private theorem beginsStmt_eq_false {t : Token} {lit : Bytes} (h : t.is lit)
    (hl : lit ∉ [ascii "(", ascii "+", ascii "-", ascii "*", ascii "&"]) (hs : lit ∉ stmtStarts) :
    beginsStmt t = false := by
  rw [Bool.eq_false_iff]
  intro hb
  rw [is_eq_false_of_beginsStmt hb hl hs] at h
  cases h

section Branches

variable {t : Token} {v : List Token}

theorem not_opens_of_is {text text' : String} {b : Phrase} (h : t.is (ascii text))
    (hne : ascii text ≠ ascii text') : ¬ (Phrase.seq (.lit text') b).opens (t :: v) :=
  Bool.eq_false_iff.mp (closed_of_is h hne)

theorem pick_return (h : t.is (ascii "return")) :
    Rule.stmt.factored.pick (t :: v) = .seqs [.lit "return", .rule .expr, .lit ";"] :=
  if_pos (opens_of_is h)

theorem pick_if (h : t.is (ascii "if")) :
    Rule.stmt.factored.pick (t :: v) = .seqs [.lit "if", .lit "(", .rule .expr, .lit ")",
      .rule .stmt, .opt (.seqs [.lit "else", .rule .stmt])] :=
  (if_neg (not_opens_of_is h (by decide))).trans (if_pos (opens_of_is h))

theorem pick_for (h : t.is (ascii "for")) :
    Rule.stmt.factored.pick (t :: v) = .seqs [.lit "for", .lit "(", .rule .exprStmt,
      .opt (.rule .expr), .lit ";", .opt (.rule .expr), .lit ")", .rule .stmt] :=
  (if_neg (not_opens_of_is h (by decide))).trans <|
    (if_neg (not_opens_of_is h (by decide))).trans (if_pos (opens_of_is h))

theorem pick_while (h : t.is (ascii "while")) :
    Rule.stmt.factored.pick (t :: v) =
      .seqs [.lit "while", .lit "(", .rule .expr, .lit ")", .rule .stmt] :=
  (if_neg (not_opens_of_is h (by decide))).trans <|
    (if_neg (not_opens_of_is h (by decide))).trans <|
      (if_neg (not_opens_of_is h (by decide))).trans (if_pos (opens_of_is h))

theorem pick_brace (h : t.is (ascii "\x7b")) :
    Rule.stmt.factored.pick (t :: v) = .seqs [.lit "\x7b", .rule .block] :=
  (if_neg (not_opens_of_is h (by decide))).trans <|
    (if_neg (not_opens_of_is h (by decide))).trans <|
      (if_neg (not_opens_of_is h (by decide))).trans <|
        (if_neg (not_opens_of_is h (by decide))).trans (if_pos (opens_of_is h))

/-- Only the keywords and the brace pick another statement than that of an expression. -/
theorem pick_exprStmt (h : ∀ lit ∈ stmtStarts, lit ≠ ascii ";" → s.starts lit = false) :
    Rule.stmt.factored.pick s.tokens = .rule .exprStmt := by
  have closed {text : String} {b : Phrase} (hm : ascii text ∈ stmtStarts)
      (hne : ascii text ≠ ascii ";") : ¬ (Phrase.seq (.lit text) b).opens s.tokens :=
    Bool.eq_false_iff.mp (closed_of_starts (h _ hm hne))
  exact (if_neg (closed (by decide) (by decide))).trans <|
    (if_neg (closed (by decide) (by decide))).trans <|
      (if_neg (closed (by decide) (by decide))).trans <|
        (if_neg (closed (by decide) (by decide))).trans (if_neg (closed (by decide) (by decide)))

theorem Walks.stmt {a : Phrase} {v' : List Token} (hp : Rule.stmt.factored.pick v = a)
    (h : Walks a v v') : Walks (.rule .stmt) v v' :=
  .rule (.of_pick (hp ▸ h))

end Branches

/-- One more item before those of a block. -/
theorem Walks.blockItem {v v₁ v₂ : List Token}
    (ho : (Phrase.alt (.rule .declaration) (.rule .stmt)).opens v)
    (first : Walks (.alt (.rule .declaration) (.rule .stmt)) v v₁)
    (rest : Walks (.rule .block) v₁ v₂) : Walks (.rule .block) v v₂ :=
  .rule (.many_seq ho first rest.body)

/-- A statement is passed as it is read: an `else` goes to the nearest conditional in both. -/
theorem walks_of_readsStmt {f : StmtForm} {xs : List Stmt} (h : ReadsStmt f s xs s') :
    Walks (stmtPhrase f) s.tokens s'.tokens := by
  induction h with
  | ret isReturn value ends =>
    exact .stmt (pick_return isReturn)
      (.seq (.lit isReturn) (.seq (.rule (walks_of_reads value)) (.lit ends)))
  | cond isIf opens test closes first second ih₁ ih₂ =>
    exact .stmt (pick_if isIf) (.seq (.lit isIf) (.seq (.lit opens)
      (.seq (.rule (walks_of_reads test)) (.seq (.lit closes) (.seq ih₁ ih₂)))))
  | loop isFor opens init cond inc inner ih =>
    obtain ⟨v₁, hc, hs⟩ := (walks_of_readsOptional (by decide) cond).exists_seq
    obtain ⟨v₂, hi, hp⟩ := (walks_of_readsOptional (by decide) inc).exists_seq
    exact .stmt (pick_for isFor) (.seq (.lit isFor) (.seq (.lit opens)
      (.seq (walks_of_readsFirst init) (.seq hc (.seq hs (.seq hi (.seq hp ih)))))))
  | whileLoop isWhile opens test closes inner ih =>
    exact .stmt (pick_while isWhile) (.seq (.lit isWhile) (.seq (.lit opens)
      (.seq (.rule (walks_of_reads test)) (.seq (.lit closes) ih))))
  | nested opens inner ih => exact .stmt (pick_brace opens) (.seq (.lit opens) ih)
  | @empty s t ends =>
    have hp : ∀ lit ∈ stmtStarts, lit ≠ ascii ";" → (s.push t).starts lit = false :=
      fun lit _ hne => Token.is_eq_false_of_is ends hne.symm
    exact .stmt (pick_exprStmt hp) (walks_of_readsFirst (.absent ends))
  | expr plain inner ends =>
    exact .stmt (pick_exprStmt fun lit hm _ => plain lit hm)
      (walks_of_readsFirst (.present (plain _ (by decide)) inner ends))
  | noElse noElse => exact .right (closed_of_starts noElse) .empty
  | orElse isElse inner ih => exact .left (opens_of_is isElse) (.seq (.lit isElse) ih)
  | @endBlock s t closes =>
    refine .rule (.seq (.none ?_) (.lit closes))
    rw [Phrase.opens_alt, Bool.or_eq_false_iff]
    exact ⟨Token.is_eq_false_of_is closes (by decide),
      beginsStmt_eq_false closes (by decide) (by decide)⟩
  | @declaration s s₁ s₂ t inits body isInt first rest ih =>
    have ho : (Phrase.rule .declaration).opens (s.push t).tokens := isInt
    refine .blockItem ?_
      (.left ho (.rule (.seq (.lit isInt) (walks_of_readsDeclarators first)))) ih
    rw [Phrase.opens_alt, ho, Bool.true_or]
  | @item s s₁ s₂ x body notEnd noInt first rest ih₁ ih₂ =>
    have ho : (Phrase.rule .stmt).opens s.tokens := ih₁.opens rfl
    have hi : (Phrase.lit "int").opens s.tokens = false := opens_lit.trans noInt
    have hc : (Phrase.rule .declaration).opens s.tokens = false := hi
    refine .blockItem ?_ (.right hc ih₁) ih₂
    rw [Phrase.opens_alt, ho, Bool.or_true]

end Statements

section Programs

theorem walks_of_readsFunction {s s' : State} {f : Function} (h : ReadsFunction s f s') :
    Walks (.rule .function) s.tokens s'.tokens := by
  cases h with
  | @intro s s₁ stars t name opening closing brace stmts isInt areStars isName opens closes begins
      inner =>
    have hn : ((((s.push brace).push closing).push opening).push name).starts (ascii "*") = false :=
      Token.is_eq_false_of_ident isName _
    exact .rule (.seq (.lit isInt) (.seq (walks_stars areStars hn)
      (.seq (.token rfl (beq_iff_eq.mpr isName)) (.seq (.lit opens) (.seq (.lit closes)
        (.seq (.lit begins) (walks_of_readsStmt inner)))))))

theorem opens_function {s s' : State} {f : Function} (h : ReadsFunction s f s') :
    (Phrase.rule .function).opens s.tokens := by
  cases h with
  | intro isInt => exact isInt

private theorem walks_of_readsFunctions {known : List Function} {s : State} {p : Program}
    (h : ReadsFunctions known s p) : Walks (.rule .functions) s.tokens [] := by
  induction h with
  | done ended =>
    rw [State.tokens, ended]
    exact .rule (.seq (.none rfl) (.token rfl rfl))
  | more first isNew rest ih =>
    exact .rule (.many_seq (opens_function first) (walks_of_readsFunction first) ih.body)

/-- A whole program is passed as it is read. -/
theorem walks_of_readsProgram {s : State} {p : Program} (h : ReadsProgram s p) :
    Walks (.rule (startRule s.tokens)) s.tokens [] := by
  cases h with
  | @topLevel s s₁ t stmts opens inner ended =>
    have hr : startRule (s.push t).tokens = .topLevel := if_pos opens
    have he : s₁.tokens = [.eof s₁.stop] := by rw [State.tokens, ended, List.nil_append]
    have hb := walks_of_readsStmt inner
    rw [he] at hb
    rw [hr]
    exact .rule (.seq (.lit opens) (.seq hb (.token rfl rfl)))
  | functions notBlock inner =>
    have hr : startRule s.tokens = .functions := by
      rw [← opens_lit] at notBlock
      exact if_neg (Bool.eq_false_iff.mp notBlock)
    rw [hr]
    exact walks_of_readsFunctions inner

end Programs

end Derivation
end StackC
