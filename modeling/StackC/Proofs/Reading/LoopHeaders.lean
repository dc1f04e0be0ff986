import StackC.Proofs.Reading.Tail
import StackC.Proofs.Token.LoopHeaders

/-! A program is read in the same way when the headers of its `while` loops are written as headers
of `for` loops. -/
namespace StackC.Grammar
open StackC.Derivation Token

/-- Tokens that the form may take: balanced ones, or the arguments of a call up to the parenthesis
that closes them. -/
def Form.Takes : Form → List Token → Prop
  | .arguments, w => ∃ v t, w = v ++ [t] ∧ Balanced v ∧ t.is (ascii ")")
  | _, w => Balanced w

/-- Spellings that decide where a header ends. -/
def headerMarks : List Bytes := [ascii "(", ascii ")", ascii "while"]

theorem balanced_cons {t : Token} {w : List Token} (ht : ∀ lit ∈ headerMarks, t.is lit = false)
    (hw : Balanced w) : Balanced (t :: w) :=
  .token (ht _ (by decide)) (ht _ (by decide)) (ht _ (by decide)) hw

theorem balanced_cons_of_is {t : Token} {lit : Bytes} {w : List Token} (h : t.is lit)
    (hl : lit ∉ headerMarks) (hw : Balanced w) : Balanced (t :: w) :=
  balanced_cons (fun _ hm => Token.is_eq_false_of_is h fun he => hl (he ▸ hm)) hw

theorem takes_of_reads {f : Form} {s s₁ : State} {xs : List Expr} (h : Reads f s xs s₁) :
    ∃ w, s.ahead = w ++ s₁.ahead ∧ f.Takes w := by
  induction h with
  | @paren s s₁ t t₁ x opens inner closes ih =>
    obtain ⟨w, hw, hb⟩ := ih
    exact ⟨t :: (w ++ [t₁]), by simp_all, .group opens hb closes .nil⟩
  | @call s s₁ t t₁ args isName opens inner ih =>
    obtain ⟨w, hw, v, t₂, rfl, hv, closes⟩ := ih
    exact ⟨t :: t₁ :: (v ++ [t₂]), by simp_all,
      balanced_cons (fun _ _ => Token.is_eq_false_of_ident isName _) (.group opens hv closes .nil)⟩
  | @name s t i locals fresh isName noCall known =>
    exact ⟨[t], rfl, balanced_cons (fun _ _ => Token.is_eq_false_of_ident isName _) .nil⟩
  | @number s t isNumber =>
    exact ⟨[t], rfl, balanced_cons (fun _ _ => Token.is_eq_false_of_num isNumber _) .nil⟩
  | @noArguments s t closes => exact ⟨[t], rfl, [], t, rfl, .nil, closes⟩
  | @arguments s s₁ t xs more inner closes ih =>
    obtain ⟨w, hw, hb⟩ := ih
    exact ⟨w ++ [t], by simp_all, w, t, rfl, hb, closes⟩
  | lastArgument only last ih => exact ih
  | @moreArguments s s₁ s₂ t x xs first comma others ih₁ ih₂ =>
    obtain ⟨w, hw, hb⟩ := ih₁
    obtain ⟨v, hv, hb'⟩ := ih₂
    exact ⟨w ++ t :: v, by simp_all, hb.append (balanced_cons_of_is comma (by decide) hb')⟩
  | @plus s s₁ t x isPlus operand ih =>
    obtain ⟨w, hw, hb⟩ := ih
    exact ⟨t :: w, by simp_all, balanced_cons_of_is isPlus (by decide) hb⟩
  | @unary s s₁ t x node noPlus isOp operand ih =>
    obtain ⟨w, hw, hb⟩ := ih
    have ht : ∀ lit ∈ headerMarks, lit ∉ [ascii "-", ascii "&", ascii "*"] := by decide
    exact ⟨t :: w, by simp_all,
      balanced_cons (fun lit hl => is_eq_false_of_unary? isOp (ht lit hl)) hb⟩
  | operand noUnary inner ih => exact ih
  | tightest inner ih => exact ih
  | level left rest ih₁ ih₂ =>
    obtain ⟨w, hw, hb⟩ := ih₁
    obtain ⟨v, hv, hb'⟩ := ih₂
    exact ⟨w ++ v, by simp_all, hb.append hb'⟩
  | endChain noOperator => exact ⟨[], rfl, .nil⟩
  | @chain s s₁ s₂ t n op swap l r x isOp right rest ih₁ ih₂ =>
    obtain ⟨w, hw, hb⟩ := ih₁
    obtain ⟨v, hv, hb'⟩ := ih₂
    have ht : ∀ lit ∈ headerMarks, slack lit = 0 ∨ levels < slack lit := by decide
    exact ⟨t :: (w ++ v), by simp_all,
      balanced_cons (fun lit hl => is_eq_false_of_operator? isOp (ht lit hl)) (hb.append hb')⟩
  | value inner noAssign ih => exact ih
  | @assign s s₁ s₂ t l r left eq right ih₁ ih₂ =>
    obtain ⟨w, hw, hb⟩ := ih₁
    obtain ⟨v, hv, hb'⟩ := ih₂
    exact ⟨w ++ t :: v, by simp_all, hb.append (balanced_cons_of_is eq (by decide) hb')⟩

/-- The state with all headers ahead written as those of `for` loops. -/
def State.forLoops (s : State) : State := { s with ahead := whileAsFor s.ahead }

section States

variable {s s₁ : State} {t : Token} {lit : Bytes}

theorem forLoops_push (h : t.is (ascii "while") = false) (s : State) :
    (s.push t).forLoops = s.forLoops.push t := by
  simp only [State.forLoops, State.push, whileAsFor_cons h]

theorem forLoops_pushAll {w : List Token} (h : ∀ t ∈ w, t.is (ascii "while") = false)
    (s : State) : (s.pushAll w).forLoops = s.forLoops.pushAll w := by
  simp only [State.forLoops, State.pushAll, whileAsFor_append h]

/-- A first token that begins no loop is kept, and one that does begins a loop still. -/
theorem forLoops_cases (s : State) : s.forLoops.ahead.head? = s.ahead.head? ∨
    ∃ t, s.ahead.head? = some t ∧ t.is (ascii "while") ∧
      s.forLoops.ahead.head? = some { t with lit := ascii "for" } := by
  rcases s with ⟨_ | ⟨t, rest⟩, stop, locals, fresh, req⟩
  · exact .inl rfl
  · simp only [State.forLoops, whileAsFor, rewriteFrom]
    split
    · next h => exact .inr ⟨t, rfl, (Bool.and_eq_true_iff.mp h).1, rfl⟩
    · exact .inl rfl

theorem forLoops_starts (hf : ascii "for" ≠ lit) (hw : ascii "while" ≠ lit) (s : State) :
    s.forLoops.starts lit = s.starts lit := by
  obtain h | ⟨t, hs, ht, h⟩ := forLoops_cases s
  · rw [State.starts, State.starts, h]
  · rw [State.starts, State.starts, h, hs, Option.any_some, Option.any_some,
      Token.is_eq_false_of_is (is_for ht) hf, Token.is_eq_false_of_is ht hw]

private theorem forLoops_starts_of_plain (h : s.starts (ascii "while") = false) (lit : Bytes) :
    s.forLoops.starts lit = s.starts lit := by
  obtain hs | ⟨t, hs, ht, -⟩ := forLoops_cases s
  · rw [State.starts, State.starts, hs]
  · rw [State.starts, hs] at h
    exact absurd (ht.symm.trans h) (by decide)

theorem forLoops_pos (s : State) : s.forLoops.pos = s.pos := by
  rcases s with ⟨_ | ⟨t, rest⟩, stop, locals, fresh, req⟩
  · rfl
  · simp only [State.forLoops, whileAsFor, rewriteFrom]
    split <;> rfl

/-- An expression takes the same tokens, up to the token behind it. -/
theorem reads_forLoops {x : Expr} (h : Reads .assign s [x] (s₁.push t)) (ht : t.is lit)
    (hl : lit ∈ [ascii ",", ascii ";", ascii ")"]) :
    Reads .assign s.forLoops [x] (s₁.forLoops.push t) := by
  obtain ⟨w, hw, hb⟩ := takes_of_reads h
  have hn : ∀ lit ∈ [ascii ",", ascii ";", ascii ")"], lit ≠ ascii "while" ∧ 5 < slack lit := by
    decide
  have hu : nextSlack { s₁ with ahead := t :: whileAsFor s₁.ahead } = slack lit :=
    nextSlack_cons ht _
  have hr := reads_before (u := t :: whileAsFor s₁.ahead) h hw (by
    rw [State.push, hu]
    exact (hn lit hl).2)
  have hf : whileAsFor s.ahead = w ++ t :: whileAsFor s₁.ahead := by
    rw [hw, whileAsFor_append hb.notLoop, State.push_ahead,
      whileAsFor_cons (Token.is_eq_false_of_is ht (hn lit hl).1)]
  rw [State.forLoops, hf]
  exact hr

theorem readsOptional_forLoops {close : Bytes} {x : Expr} (h : ReadsOptional close s x s₁)
    (hl : close ∈ [ascii ",", ascii ";", ascii ")"]) :
    ReadsOptional close s.forLoops x s₁.forLoops := by
  have hn : ∀ lit ∈ [ascii ",", ascii ";", ascii ")"],
      lit ≠ ascii "while" ∧ ascii "for" ≠ lit ∧ ascii "while" ≠ lit := by decide
  obtain ⟨hw, hf, hw'⟩ := hn close hl
  cases h with
  | absent closes =>
    rw [forLoops_push (Token.is_eq_false_of_is closes hw)]
    exact .absent closes
  | present notYet inner closes =>
    exact .present ((forLoops_starts hf hw' s).trans notYet) (reads_forLoops inner closes hl) closes

private theorem readsFirst_forLoops {first : Stmt} (h : ReadsFirst s first s₁) :
    ReadsFirst s.forLoops first s₁.forLoops := by
  cases h with
  | absent ends =>
    rw [forLoops_push (Token.is_eq_false_of_is ends (by decide))]
    exact .absent ends
  | present notYet inner ends =>
    rw [← forLoops_pos]
    exact .present ((forLoops_starts (by decide) (by decide) s).trans notYet)
      (reads_forLoops inner ends (by decide)) ends

theorem readsDeclarator_forLoops {inits : List Stmt} (h : ReadsDeclarator s inits (s₁.push t))
    (ht : t.is lit) (hl : lit ∈ [ascii ",", ascii ";", ascii ")"]) :
    ReadsDeclarator s.forLoops inits (s₁.forLoops.push t) := by
  have stars {w : List Token} (hw : ∀ t ∈ w, t.is (ascii "*")) :
      ∀ t ∈ w, t.is (ascii "while") = false :=
    fun t hm => Token.is_eq_false_of_is (hw t hm) (by decide)
  have hn : ∀ lit ∈ [ascii ",", ascii ";", ascii ")"], lit ≠ ascii "while" := by decide
  generalize hs : s₁.push t = s₂ at h
  cases h with
  | @bare s stars' name areStars isName isNew notScratch noValue =>
    obtain ⟨s₂, rfl, rfl⟩ := State.eq_push_of_locals hs.symm
    rw [forLoops_pushAll (stars areStars), forLoops_push (Token.is_eq_false_of_ident isName _),
      forLoops_push (Token.is_eq_false_of_is ht (hn lit hl))]
    exact .bare (s := s₂.forLoops.push t) areStars isName isNew notScratch noValue
  | @init s s₂ stars' name t' x areStars isName isNew notScratch eq value =>
    subst hs
    rw [forLoops_pushAll (stars areStars), forLoops_push (Token.is_eq_false_of_ident isName _),
      forLoops_push (Token.is_eq_false_of_is eq (by decide))]
    exact .init (s := s.forLoops) areStars isName isNew notScratch eq
      (reads_forLoops value ht hl)

private theorem readsDeclarators_forLoops {inits : List Stmt} (h : ReadsDeclarators s inits s₁) :
    ReadsDeclarators s.forLoops inits s₁.forLoops := by
  induction h with
  | last only ends => exact .last (readsDeclarator_forLoops only ends (by decide)) ends
  | more first comma rest ih =>
    exact .more (readsDeclarator_forLoops first comma (by decide)) comma ih

/-- The header of a `while` loop becomes one of a `for` loop with no first step and no step. -/
theorem readsHeader_forLoops {t₁ t₂ : Token} {x : Expr} (isWhile : t.is (ascii "while"))
    (opens : t₁.is (ascii "(")) (test : Reads .assign s [x] (s₁.push t₂))
    (closes : t₂.is (ascii ")")) : ∃ s₂ s₃ s₄,
      State.forLoops ((s.push t₁).push t) =
        State.push (State.push s₂ t₁) { t with lit := ascii "for" } ∧
      ReadsFirst s₂ .absent s₃ ∧ ReadsOptional (ascii ";") s₃ x s₄ ∧
      ReadsOptional (ascii ")") s₄ .absent s₁.forLoops := by
  obtain ⟨w, hw, hb⟩ := takes_of_reads test
  let rest := t₂ :: whileAsFor s₁.ahead
  have isSemicolon : (semicolon t₂.pos).is (ascii ";") := rfl
  have hu : nextSlack { s₁ with ahead := semicolon t₂.pos :: rest } = 7 :=
    nextSlack_cons isSemicolon rest
  have hr := reads_before (u := semicolon t₂.pos :: rest) test hw (by rw [State.push, hu]; decide)
  refine ⟨State.push { s with ahead := w ++ semicolon t₂.pos :: rest } (semicolon t₁.pos),
    { s with ahead := w ++ semicolon t₂.pos :: rest }, { s₁ with ahead := rest }, ?_, .absent rfl,
    .present (t := semicolon t₂.pos) (starts_of_reads hr (by decide)) hr isSemicolon,
    .absent (s := s₁.forLoops) closes⟩
  have ha : ((s.push t₁).push t).ahead = t :: t₁ :: (w ++ t₂ :: s₁.ahead) := by
    rw [State.push_ahead, State.push_ahead, hw, State.push_ahead]
  rw [State.forLoops, ha, whileAsFor_header isWhile opens hb closes]
  rfl

/-- Statements are read as the very same statements. -/
theorem readsStmt_forLoops {f : StmtForm} {xs : List Stmt} (h : ReadsStmt f s xs s₁) :
    ReadsStmt f s.forLoops xs s₁.forLoops := by
  induction h with
  | ret isReturn value ends =>
    rw [forLoops_push (Token.is_eq_false_of_is isReturn (by decide))]
    exact .ret isReturn (reads_forLoops value ends (by decide)) ends
  | cond isIf opens test closes first second ih₁ ih₂ =>
    rw [forLoops_push (Token.is_eq_false_of_is isIf (by decide)),
      forLoops_push (Token.is_eq_false_of_is opens (by decide))]
    exact .cond isIf opens (reads_forLoops test closes (by decide)) closes ih₁ ih₂
  | loop isFor opens init cond inc inner ih =>
    rw [forLoops_push (Token.is_eq_false_of_is isFor (by decide)),
      forLoops_push (Token.is_eq_false_of_is opens (by decide))]
    exact .loop isFor opens (readsFirst_forLoops init) (readsOptional_forLoops cond (by decide))
      (readsOptional_forLoops inc (by decide)) ih
  | @whileLoop s s₁ s₂ t t₁ t₂ x body isWhile opens test closes inner ih =>
    obtain ⟨_, _, _, hs, init, cond, inc⟩ := readsHeader_forLoops isWhile opens test closes
    rw [hs]
    exact .loop (t := { t with lit := ascii "for" }) (is_for isWhile) opens init cond inc ih
  | nested opens inner ih =>
    rw [forLoops_push (Token.is_eq_false_of_is opens (by decide))]
    exact .nested opens ih
  | empty ends =>
    rw [forLoops_push (Token.is_eq_false_of_is ends (by decide))]
    exact .empty ends
  | @expr s s₁ t x plain inner ends =>
    rw [← forLoops_pos]
    have hs := forLoops_starts_of_plain (plain (ascii "while") (by decide))
    exact .expr (fun lit hl => (hs lit).trans (plain lit hl))
      (reads_forLoops inner ends (by decide)) ends
  | @noElse s noElse => exact .noElse ((forLoops_starts (by decide) (by decide) s).trans noElse)
  | orElse isElse inner ih =>
    rw [forLoops_push (Token.is_eq_false_of_is isElse (by decide))]
    exact .orElse isElse ih
  | endBlock closes =>
    rw [forLoops_push (Token.is_eq_false_of_is closes (by decide))]
    exact .endBlock closes
  | declaration isInt first rest ih =>
    rw [forLoops_push (Token.is_eq_false_of_is isInt (by decide))]
    exact .declaration isInt (readsDeclarators_forLoops first) ih
  | @item s s₁ s₂ x body notEnd noInt first rest ih₁ ih₂ =>
    exact .item ((forLoops_starts (by decide) (by decide) s).trans notEnd)
      ((forLoops_starts (by decide) (by decide) s).trans noInt) ih₁ ih₂

private theorem readsFunction_forLoops {f : Function} (h : ReadsFunction s f s₁) :
    ReadsFunction s.forLoops f s₁.forLoops := by
  cases h with
  | @intro s s₁ stars t name opening closing brace stmts isInt areStars isName opens closes begins
      inner =>
    rw [forLoops_push (Token.is_eq_false_of_is isInt (by decide)),
      forLoops_pushAll fun t ht => Token.is_eq_false_of_is (areStars t ht) (by decide),
      forLoops_push (Token.is_eq_false_of_ident isName _),
      forLoops_push (Token.is_eq_false_of_is opens (by decide)),
      forLoops_push (Token.is_eq_false_of_is closes (by decide)),
      forLoops_push (Token.is_eq_false_of_is begins (by decide))]
    exact .intro (s := s.forLoops) isInt areStars isName opens closes begins
      (readsStmt_forLoops inner)

theorem forLoops_ended (h : s.ahead = []) : s.forLoops.ahead = [] := by
  rw [State.forLoops, h]
  rfl

private theorem readsFunctions_forLoops {known : List Function} {p : Program}
    (h : ReadsFunctions known s p) : ReadsFunctions known s.forLoops p := by
  induction h with
  | @done known s ended => exact .done (s := s.forLoops) (forLoops_ended ended)
  | more first isNew rest ih => exact .more (readsFunction_forLoops first) isNew ih

/-- The program is read as the very same program. -/
theorem readsProgram_forLoops {p : Program} (h : ReadsProgram s p) :
    ReadsProgram s.forLoops p := by
  cases h with
  | topLevel opens inner ended =>
    rw [forLoops_push (Token.is_eq_false_of_is opens (by decide))]
    have hp := ReadsProgram.topLevel opens (readsStmt_forLoops inner) (forLoops_ended ended)
    exact hp
  | functions notBlock inner =>
    exact .functions ((forLoops_starts (by decide) (by decide) s).trans notBlock)
      (readsFunctions_forLoops inner)

end States

end StackC.Grammar
